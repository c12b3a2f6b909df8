import SymbolAtlas.Proofs.FolderClimb
import SymbolAtlas.Proofs.ImportedFiles
import SymbolAtlas.Request.Completion

/-!
# Relative packages in imports and in completions

A relative package is looked up from a number of folders above the file that it stands in.
Imports climb there from the canonical path of the file, completions from the path of the file as
it was given.  Both come to the same place when the given path ends in as many names as the
package has dots.  Otherwise completions do not climb as far as imports, and the two never find
the same module.

## Main Definitions

* `moduleAbove?`: the module that a relative package names, from the path of a file.
* `completedModule?`, `importedModule?`: the modules of completions and of imports.
* `importableNames`: the names that the imported module declares.

## Main Statements

* `packageModule?_eq_moduleAbove?`, `resolvePackage?_eq_moduleAbove?`: both lookups are one, from
  different paths.
* `map_canonical_moduleAbove?`: from paths that end in names they find the same module.
* `canonical_moduleAbove?_ne`: from other paths they do not.
* `relative_packages_agree`: when imports and completions agree.
-/

namespace SymbolAtlas

variable {tree : FileTree}

/-! ## The file of a package from a folder -/

namespace FileTree

/-- Where an extended path leads depends on where the path leads. -/
theorem locate_join_congr {p q : Path} (h : tree.baseOf p = tree.baseOf q) {more : String}
    (hhead : more.toList.head? ≠ some '/') (hmore : more ≠ "") :
    tree.locate (p.join more) = tree.locate (q.join more) := by
  by_cases hnull : '\x00' ∈ more.toList
  · rw [locate_join_of_null p hhead hnull, locate_join_of_null q hhead hnull]
  · rw [locate_join p hhead hmore hnull, locate_join q hhead hmore hnull, h]

theorem baseOf_joinSegments_congr {p q : Path} (h : tree.baseOf p = tree.baseOf q)
    {segments : List String} (hsteps : ∀ segment ∈ segments, Path.IsStep segment) :
    tree.baseOf (joinSegments p segments) = tree.baseOf (joinSegments q segments) := by
  induction segments generalizing p q with
  | nil => exact h
  | cons segment segments ih =>
    obtain ⟨hstep, hsteps⟩ := List.forall_mem_cons.1 hsteps
    refine ih ?_ hsteps
    rw [baseOf_join p hstep.ne_empty, baseOf_join q hstep.ne_empty]
    exact locate_join_congr h hstep.head?_ne hstep.ne_empty

/-- Steps down lead as many names further as there are steps. -/
theorem exists_place_of_joinSegments {p : Path} {segments : List String}
    (hsteps : ∀ segment ∈ segments, Path.IsStep segment) {names : List EntryName}
    (h : tree.baseOf (joinSegments p segments) = .ok names) :
    ∃ place, tree.baseOf p = .ok place ∧ names.length = place.length + segments.length := by
  induction segments using List.reverseRecOn generalizing names with
  | nil => exact ⟨names, h, rfl⟩
  | append_singleton segments segment ih =>
    obtain ⟨hsteps, hstep⟩ := List.forall_mem_append.1 hsteps
    replace hstep := List.forall_mem_singleton.1 hstep
    rw [joinSegments_concat, baseOf_join _ hstep.ne_empty] at h
    obtain ⟨front, name, hfront, rfl, -⟩ := exists_name_of_locate_join hstep h
    obtain ⟨place, hplace, hlength⟩ := ih hsteps hfront
    exact ⟨place, hplace, by simp only [List.length_append, List.length_singleton, hlength]; omega⟩

/-- Paths that lead to the same place name the same file. -/
theorem map_canonical_filter_congr {p q : Path} (h : tree.locate p = tree.locate q) :
    ((some p).filter tree.isFile).map tree.canonical =
      ((some q).filter tree.isFile).map tree.canonical := by
  have hfile : tree.isFile p = tree.isFile q := by rw [isFile, isFile, entry?, entry?, h]
  rw [Option.filter_some, Option.filter_some, hfile]
  split
  · next hq =>
    obtain ⟨names, -, hlocate, -⟩ := exists_locate_of_isFile hq
    rw [Option.map_some, Option.map_some, canonical, canonical, h, hlocate]
  · rfl

/-- A file lies in a folder. -/
theorem exists_parent?_of_isFile {p : Path} (h : tree.isFile p = true) :
    ∃ q, p.parent? = some q := by
  obtain ⟨names, contents, hlocate, hat⟩ := exists_locate_of_isFile h
  have hfollow := followComponents_of_baseOf (baseOf_of_locate hlocate)
  rcases p.parent?_cases with ⟨-, hnil | hroot⟩ | ⟨q, -, hq, -⟩
  · rw [locate, if_pos (Path.spelling_of_components hnil)] at hlocate
    cases hlocate
  · rw [hroot] at hfollow
    obtain rfl := Except.ok.inj hfollow
    cases hat
  · exact ⟨q, hq⟩

end FileTree

section Modules

variable {package : PackagePath} {extension : String}

theorem head?_moduleName {last : String} {c : Char} (h : last.toList.head? = some c)
    (extension : String) : (last ++ "." ++ extension).toList.head? = some c := by
  obtain ⟨chars, hchars⟩ := List.head?_eq_some_iff.1 h
  simp [hchars]

/-- From folders at one place a package leads to the same module. -/
theorem map_canonical_moduleFile?_congr
    (hidentifiers : ∀ segment ∈ package.segments, IsIdentifier segment.toList) {p q : Path}
    (h : tree.baseOf p = tree.baseOf q) :
    ((moduleFile? p package extension).filter tree.isFile).map tree.canonical =
      ((moduleFile? q package extension).filter tree.isFile).map tree.canonical := by
  rcases moduleFile?_cases package extension with hnone | ⟨last, hlast, hne, hsome⟩
  · rw [hnone p, hnone q]
  · have hsteps : ∀ segment ∈ package.segments.dropLast, Path.IsStep segment :=
      fun segment hsegment =>
        isStep_of_isIdentifier (hidentifiers segment (List.dropLast_subset _ hsegment))
    obtain ⟨c, hhead, hc⟩ :=
      exists_head?_of_isIdentifier (hidentifiers last (List.mem_of_getLast? hlast))
    have hname := head?_moduleName hhead extension
    rw [hsome p, hsome q]
    refine FileTree.map_canonical_filter_congr
      (FileTree.locate_join_congr (FileTree.baseOf_joinSegments_congr h hsteps) ?_ ?_)
    · rw [hname]
      rintro ⟨⟩
      exact absurd hc (by decide)
    · intro hempty
      rw [hempty] at hname
      cases hname

/-- A module is found as many names below the folder as the package has segments. -/
theorem exists_place_of_moduleFile?
    (hidentifiers : ∀ segment ∈ package.segments, IsIdentifier segment.toList)
    (hslash : '/' ∉ extension.toList) {p target : Path}
    (htarget : moduleFile? p package extension = some target) {names : List EntryName}
    (h : tree.locate target = .ok names) :
    ∃ place, tree.baseOf p = .ok place ∧
      names.length = place.length + package.segments.length := by
  rcases moduleFile?_cases package extension with hnone | ⟨last, hlast, hne, hsome⟩
  · rw [hnone p] at htarget
    cases htarget
  · rw [hsome p] at htarget
    obtain rfl := Option.some.inj htarget
    obtain ⟨front, hsegments⟩ := List.getLast?_eq_some_iff.1 hlast
    rw [hsegments, List.forall_mem_append, List.forall_mem_singleton] at hidentifiers
    rw [hsegments, List.dropLast_concat] at h
    obtain ⟨above, name, habove, rfl, -⟩ :=
      FileTree.exists_name_of_locate_join (isStep_moduleName hidentifiers.2 hslash) h
    obtain ⟨place, hplace, hlength⟩ := FileTree.exists_place_of_joinSegments
      (fun segment hsegment => isStep_of_isIdentifier (hidentifiers.1 segment hsegment)) habove
    refine ⟨place, hplace, ?_⟩
    rw [hsegments, List.length_append, List.length_append, hlength, Nat.add_assoc]
    rfl

/-! ## The module of a package from a file -/

/-- The module that a relative package names, from the path of the file in which it stands. -/
def moduleAbove? (tree : FileTree) (source : Path) (package : PackagePath) (extension : String) :
    Option Path :=
  (climbFolders package.dots source).bind fun base =>
    (moduleFile? base package extension).filter tree.isFile

theorem relativeBase_parent {source : Path} (hfile : tree.isFile source = true)
    (hrelative : package.isRelative = true) :
    relativeBase source.parent package.dots = climbFolders package.dots source := by
  obtain ⟨folder, hfolder⟩ := FileTree.exists_parent?_of_isFile hfile
  obtain ⟨dots, hdots⟩ := Nat.exists_eq_succ_of_ne_zero (of_decide_eq_true hrelative).ne'
  rw [relativeBase, hdots, climbFolders, Path.parent, hfolder]
  rfl

/-- A completion looks up a relative package from the path of the file as it was given. -/
theorem packageModule?_eq_moduleAbove? {source : Path} (hfile : tree.isFile source = true)
    (hrelative : package.isRelative = true) (packagesFolder : Option Path) :
    packageModule? tree source package packagesFolder extension =
      moduleAbove? tree source package extension := by
  have hfolder : tree.isFolder source = false := by
    rw [← Bool.not_eq_true]
    intro hfolder
    rw [FileTree.isFile_eq_false_of_isFolder hfolder] at hfile
    cases hfile
  rw [packageModule?, packageBase?, if_pos hrelative, sourceFolder, if_neg (by simp [hfolder]),
    relativeBase_parent hfile hrelative, moduleAbove?]
  cases climbFolders package.dots source <;> rfl

/-- An import looks up a relative package from the path of its module. -/
theorem resolvePackage?_eq_moduleAbove? {source : Path} (hfile : tree.isFile source = true)
    (hrelative : package.isRelative = true) (searchFolders : List Path) :
    resolvePackage? tree source.parent package searchFolders extension =
      moduleAbove? tree source package extension := by
  rw [resolvePackage?, if_pos hrelative, relativeBase_parent hfile hrelative, moduleAbove?]
  cases climbFolders package.dots source <;> rfl

/-- When the path of a file ends in names, the climb over them leads where it leads from the
canonical path. -/
theorem map_canonical_moduleAbove?
    (hidentifiers : ∀ segment ∈ package.segments, IsIdentifier segment.toList)
    (hrelative : package.isRelative = true) {source : Path} {names : List EntryName}
    (hsource : tree.locate source = .ok names) (hnames : source.endsInNames package.dots = true) :
    (moduleAbove? tree source package extension).map tree.canonical =
      (moduleAbove? tree (.ofNames names) package extension).map tree.canonical := by
  have hdots : 0 < package.dots := of_decide_eq_true hrelative
  have hcanonical : tree.locate (.ofNames names) = .ok names :=
    FileTree.locate_ofNames (FileTree.isSome_at?_of_locate hsource)
  obtain ⟨hle, base, hbase, hplace⟩ := FileTree.baseOf_of_endsInNames hsource hdots hnames
  obtain ⟨-, base', hbase', hplace'⟩ :=
    FileTree.baseOf_of_endsInNames hcanonical hdots (Path.endsInNames_ofNames hle)
  rw [moduleAbove?, moduleAbove?, hbase, hbase', Option.bind_some, Option.bind_some]
  exact map_canonical_moduleFile?_congr hidentifiers (hplace.trans hplace'.symm)

theorem exists_of_moduleAbove? {source target : Path}
    (hidentifiers : ∀ segment ∈ package.segments, IsIdentifier segment.toList)
    (hslash : '/' ∉ extension.toList)
    (h : moduleAbove? tree source package extension = some target) :
    ∃ base place names, climbFolders package.dots source = some base ∧
      tree.baseOf base = .ok place ∧ tree.canonical target = .ofNames names ∧
      names.length = place.length + package.segments.length := by
  obtain ⟨base, hbase, htarget⟩ := Option.bind_eq_some_iff.1 h
  obtain ⟨hmodule, hfile⟩ := Option.filter_eq_some_iff.1 htarget
  obtain ⟨names, -, hlocate, -⟩ := FileTree.exists_locate_of_isFile hfile
  obtain ⟨place, hplace, hlength⟩ :=
    exists_place_of_moduleFile? hidentifiers hslash hmodule hlocate
  exact ⟨base, place, names, hbase, hplace, by rw [FileTree.canonical, hlocate], hlength⟩

/-- When the path of a file does not end in names, the climb does not lead as far up as from the
canonical path, and what is found lies further down. -/
theorem canonical_moduleAbove?_ne
    (hidentifiers : ∀ segment ∈ package.segments, IsIdentifier segment.toList)
    (hrelative : package.isRelative = true) (hslash : '/' ∉ extension.toList) {source : Path}
    {names : List EntryName} (hsource : tree.locate source = .ok names)
    (hnames : source.endsInNames package.dots = false) {target target' : Path}
    (h : moduleAbove? tree source package extension = some target)
    (h' : moduleAbove? tree (.ofNames names) package extension = some target') :
    tree.canonical target ≠ tree.canonical target' := by
  obtain ⟨base, place, found, hbase, hplace, hfound, hlength⟩ :=
    exists_of_moduleAbove? hidentifiers hslash h
  obtain ⟨base', place', found', hbase', hplace', hfound', hlength'⟩ :=
    exists_of_moduleAbove? hidentifiers hslash h'
  -- both modules lie as deep below their folders, but the folders are not equally deep
  have hfar := FileTree.length_lt_of_climbFolders hsource hbase hplace hnames
  have hcanonical : tree.locate (.ofNames names) = .ok names :=
    FileTree.locate_ofNames (FileTree.isSome_at?_of_locate hsource)
  have hle := le_length_of_climbFolders hbase'
  obtain ⟨-, top, htop, hup⟩ := FileTree.baseOf_of_endsInNames hcanonical
    (of_decide_eq_true hrelative) (Path.endsInNames_ofNames hle)
  obtain rfl := Option.some.inj (hbase'.symm.trans htop)
  have hnear : place'.length = names.length - package.dots := by
    rw [Except.ok.inj (hplace'.symm.trans hup), List.length_take]
    omega
  intro heq
  rw [hfound, hfound'] at heq
  have hsame : found = found' := Path.same_ofNames.1 (by rw [heq]; exact Path.same_refl _)
  rw [hsame] at hlength
  omega

end Modules

/-! ## Imports and completions -/

section Definitions

variable (config : Config) (tree : FileTree) (source : Path) (package : PackagePath)

/-- The canonical path of the module from which names are offered for a package. -/
def completedModule? : Option Path :=
  (packageModule? tree source package config.packagesFolder config.extension).map tree.canonical

/-- The canonical path of the module that an import of a package loads. -/
def importedModule? : Option Path :=
  (resolvePackage? tree (tree.canonical source).parent package config.searchFolders
    config.extension).map tree.canonical

/-- The names that the module declares which an import of a package loads. -/
def importableNames (beginning : String) : List String :=
  match importedModule? config tree source package with
  | none => []
  | some target =>
    match config.compileModule tree target none with
    | .error _ => []
    | .ok m => m.declaredNames beginning

end Definitions

/-- What is offered for a package are the names from its module. -/
theorem completeImportSymbol_eq (config : Config) (tree : FileTree) (source : Path)
    {package : PackagePath} (h : package.WellFormed) (beginning : String) :
    (completeImportSymbol config.compiler config source package.display beginning tree).1 =
      match completedModule? config tree source package with
      | none => []
      | some target =>
        match config.compileModule tree target none with
        | .error _ => []
        | .ok m => m.declaredNames beginning := by
  have htree : config.compiler.currentTree tree = (tree, tree) := rfl
  simp only [completeImportSymbol, stateM_bind_apply, htree, PackagePath.parse_display h,
    completedModule?]
  cases packageModule? tree source package config.packagesFolder config.extension with
  | none => rfl
  | some target =>
    have hcompile : config.compiler.compile target none tree =
        (config.compileModule tree target none, tree) := rfl
    simp only [stateM_bind_apply, hcompile, Option.map_some, config.compileModule_canonical]
    cases config.compileModule tree target none <;> rfl

section Agreement

variable {config : Config} {source : Path} {package : PackagePath} {names : List EntryName}

theorem completedModule?_eq (hfile : tree.isFile source = true)
    (hrelative : package.isRelative = true) :
    completedModule? config tree source package =
      (moduleAbove? tree source package config.extension).map tree.canonical := by
  rw [completedModule?, packageModule?_eq_moduleAbove? hfile hrelative]

theorem importedModule?_eq (hfile : tree.isFile source = true)
    (hrelative : package.isRelative = true) (hsource : tree.locate source = .ok names) :
    importedModule? config tree source package =
      (moduleAbove? tree (.ofNames names) package config.extension).map tree.canonical := by
  have hcanonical : tree.canonical source = .ofNames names := by rw [FileTree.canonical, hsource]
  have hfile' : tree.isFile (.ofNames names) = true := by
    obtain ⟨found, contents, hfound, hat⟩ := FileTree.exists_locate_of_isFile hfile
    obtain rfl := Except.ok.inj (hsource.symm.trans hfound)
    exact (FileTree.canonical_and_isFile_iff.2 ⟨names, contents, rfl, hat⟩).2
  rw [importedModule?, hcanonical, resolvePackage?_eq_moduleAbove? hfile' hrelative]

theorem completedModule?_eq_importedModule? (hfile : tree.isFile source = true)
    (hrelative : package.isRelative = true)
    (hidentifiers : ∀ segment ∈ package.segments, IsIdentifier segment.toList)
    (hnames : source.endsInNames package.dots = true) :
    completedModule? config tree source package =
      importedModule? config tree source package := by
  obtain ⟨names, -, hsource, -⟩ := FileTree.exists_locate_of_isFile hfile
  rw [completedModule?_eq hfile hrelative, importedModule?_eq hfile hrelative hsource]
  exact map_canonical_moduleAbove? hidentifiers hrelative hsource hnames

theorem importedModule?_eq_none (hfile : tree.isFile source = true)
    (hrelative : package.isRelative = true)
    (hidentifiers : ∀ segment ∈ package.segments, IsIdentifier segment.toList)
    (hslash : '/' ∉ config.extension.toList) (hnames : source.endsInNames package.dots = false)
    (h : completedModule? config tree source package =
      importedModule? config tree source package) :
    importedModule? config tree source package = none := by
  obtain ⟨names, -, hsource, -⟩ := FileTree.exists_locate_of_isFile hfile
  rw [completedModule?_eq hfile hrelative, importedModule?_eq hfile hrelative hsource] at h
  rw [importedModule?_eq hfile hrelative hsource, Option.map_eq_none_iff]
  cases htarget' : moduleAbove? tree (.ofNames names) package config.extension with
  | none => rfl
  | some target' =>
    rw [htarget', Option.map_some] at h
    obtain ⟨target, htarget, hsame⟩ := Option.map_eq_some_iff.1 h
    exact absurd hsame (canonical_moduleAbove?_ne hidentifiers hrelative hslash hsource hnames
      htarget htarget')

end Agreement

/-- When the path of a source file ends in as many names as a relative package has dots,
completions offer the names of the module that an import loads, or there is none for either.  For
other paths the two never find the same module. -/
theorem relative_packages_agree (config : Config) (tree : FileTree) (source : Path)
    (package : PackagePath) (hfile : tree.isFile source = true)
    (hrelative : package.isRelative = true)
    (hidentifiers : ∀ segment ∈ package.segments, IsIdentifier segment.toList) :
    (source.endsInNames package.dots = true →
      completedModule? config tree source package = importedModule? config tree source package ∧
      ∀ beginning,
        (completeImportSymbol config.compiler config source package.display beginning tree).1 =
          importableNames config tree source package beginning) ∧
    ('/' ∉ config.extension.toList →
      (completedModule? config tree source package = importedModule? config tree source package ↔
        source.endsInNames package.dots = true ∨
          completedModule? config tree source package = none ∧
            importedModule? config tree source package = none)) := by
  have hagree : source.endsInNames package.dots = true →
      completedModule? config tree source package =
        importedModule? config tree source package :=
    completedModule?_eq_importedModule? hfile hrelative hidentifiers
  refine ⟨fun hnames => ⟨hagree hnames, fun beginning => ?_⟩, fun hslash => ⟨fun heq => ?_, ?_⟩⟩
  · rw [completeImportSymbol_eq config tree source
      (PackagePath.wellFormed_of_isIdentifier hidentifiers), hagree hnames]
    rfl
  · rw [or_iff_not_imp_left, Bool.not_eq_true]
    intro hnames
    have hnone := importedModule?_eq_none hfile hrelative hidentifiers hslash hnames heq
    exact ⟨heq.trans hnone, hnone⟩
  · rintro (hnames | ⟨hnone, hnone'⟩)
    · exact hagree hnames
    · rw [hnone, hnone']

/-- A module that imports from one folder up, with a folder next to it. -/
def climbTree : FileTree :=
  (((FileTree.bare ⟨"/w"⟩).write ⟨"/w/b.ol"⟩ (.text "type Shape")).write ⟨"/w/ws/a.ol"⟩
    (.text "from ..b import Shape")).write ⟨"/w/ws/x/c.ol"⟩ (.text "")

theorem forall_isIdentifier_climb :
    ∀ segment ∈ ["b"], IsIdentifier (String.toList segment) :=
  List.forall_mem_singleton.2 (by decide)

/-- From the working folder the path of the module is two names. -/
theorem relative_packages_agree_climb :
    importedModule? .default climbTree ⟨"ws/a.ol"⟩ ⟨2, ["b"]⟩ = some ⟨"/w/b.ol"⟩ ∧
      (completeImportSymbol Config.default.compiler .default ⟨"ws/a.ol"⟩ "..b" "" climbTree).1 =
        importableNames .default climbTree ⟨"ws/a.ol"⟩ ⟨2, ["b"]⟩ "" ∧
      importableNames .default climbTree ⟨"ws/a.ol"⟩ ⟨2, ["b"]⟩ "" = ["Shape"] := by
  obtain ⟨hagree, -⟩ := relative_packages_agree .default climbTree ⟨"ws/a.ol"⟩ ⟨2, ["b"]⟩
    (by decide +kernel) rfl forall_isIdentifier_climb
  obtain ⟨-, hoffered⟩ := hagree (by decide +kernel)
  exact ⟨by decide +kernel, hoffered "", by decide +kernel⟩

/-- Not every path of a file leads completions to the module that is imported: to climb from the
folder `x/..` to `x` is no climb. -/
theorem completions_stray :
    ¬ ∀ (config : Config) (tree : FileTree) (source : Path) (package : PackagePath),
      tree.isFile source = true → package.isRelative = true →
      (∀ segment ∈ package.segments, IsIdentifier segment.toList) →
      completedModule? config tree source package =
        importedModule? config tree source package := by
  intro hagree
  have heq := hagree .default climbTree ⟨"/w/ws/x/../a.ol"⟩ ⟨2, ["b"]⟩ (by decide +kernel) rfl
    forall_isIdentifier_climb
  have hcompleted : completedModule? .default climbTree ⟨"/w/ws/x/../a.ol"⟩ ⟨2, ["b"]⟩ = none := by
    decide +kernel
  have himported : importedModule? .default climbTree ⟨"/w/ws/x/../a.ol"⟩ ⟨2, ["b"]⟩ =
      some ⟨"/w/b.ol"⟩ := by
    decide +kernel
  rw [hcompleted, himported] at heq
  cases heq

end SymbolAtlas
