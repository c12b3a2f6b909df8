import SymbolAtlas.FileTree.Basic
import SymbolAtlas.Package.Basic

/-!
# From package paths to module files

A relative package path is looked up from the folder of the importing module,
an absolute one in the search folders.  `.shapes` is the file `shapes` with the
module extension next to the importing file, `..lib.shapes` the one in `lib` one
folder up, and `console` the one in the first search folder that has it.

## Main Definitions

* `relativeBase`: where a relative package path starts.
* `moduleFile?`: the file that a package path spells.
* `resolvePackage?`: the file that an import statement loads.
* `packageBase?`, `packageModule?`: the same for a path that is being typed.
* `packageCandidates`: the names that can complete such a path.
-/

namespace SymbolAtlas

/-- The folder some number of steps up, if there is one. -/
def climbFolders : Nat → Path → Option Path
  | 0, folder => some folder
  | steps + 1, folder =>
    match folder.parent? with
    | some above => climbFolders steps above
    | none => none

/-- Where a relative package path starts: the folder of the importing module,
and one folder up for each dot after the first. -/
def relativeBase (folder : Path) (dots : Nat) : Option Path :=
  climbFolders (dots - 1) folder

/-- The folder that some segments lead to. -/
def joinSegments (base : Path) (segments : List String) : Path := segments.foldl Path.join base

/-- The file that a package path spells from a given folder: its last segment
becomes a file name with the module extension. -/
def moduleFile? (base : Path) (package : PackagePath) (extension : String) : Option Path :=
  match package.segments.getLast? with
  | none => none
  | some last =>
    if last = "" then none
    else some ((joinSegments base package.segments.dropLast).join (last ++ "." ++ extension))

/-- The file that an import statement loads, `folder` being the folder of the
importing module. -/
def resolvePackage? (tree : FileTree) (folder : Path) (package : PackagePath)
    (searchFolders : List Path) (extension : String) : Option Path :=
  if package.isRelative then
    match relativeBase folder package.dots with
    | none => none
    | some base => (moduleFile? base package extension).filter tree.isFile
  else
    (searchFolders.filterMap (moduleFile? · package extension)).find? tree.isFile

/-- The folder of a source file.  A folder stands for itself. -/
def sourceFolder (tree : FileTree) (source : Path) : Path :=
  if tree.isFolder source then source else source.parent

/-- Where a package path in a source file starts: a relative one next to the
file, an absolute one in the packages folder. -/
def packageBase? (tree : FileTree) (source : Path) (package : PackagePath)
    (packagesFolder : Option Path) : Option Path :=
  if package.isRelative then relativeBase (sourceFolder tree source) package.dots
  else packagesFolder

/-- The module file that a package path in a source file names, if it exists. -/
def packageModule? (tree : FileTree) (source : Path) (package : PackagePath)
    (packagesFolder : Option Path) (extension : String) : Option Path :=
  match packageBase? tree source package packagesFolder with
  | none => none
  | some base => (moduleFile? base package extension).filter tree.isFile

/-- The name under which an entry of a folder can continue a package path: a
folder by its name, a module file by its name without the extension. -/
def candidateName? (extension : String) (child : EntryName × Entry) : Option String :=
  let name := child.1.text
  match child.2 with
  | .folder _ => some name
  | .file _ =>
    if Path.nameExtension? name = some extension then some (Path.nameStem name) else none

/-- The names of modules and folders in a folder that begin in a given way, in
order. -/
def candidatesIn (tree : FileTree) (folder : Path) (beginning extension : String) :
    List String :=
  match tree.children? folder with
  | none => []
  | some children =>
    sorted nameBefore
      ((children.filterMap (candidateName? extension)).filter fun name =>
        beginning.toList.isPrefixOf name.toList)

/-- The names that can complete a package path that is still being typed.  When
it names a folder these are the modules and folders in it, otherwise the
neighbours that begin with its last segment. -/
def packageCandidates (tree : FileTree) (source : Path) (partialPath : String)
    (packagesFolder : Option Path) (extension : String) : List String :=
  let package := PackagePath.parse partialPath
  match packageBase? tree source package packagesFolder with
  | none => []
  | some base =>
    let last := package.segments.getLast?.getD ""
    let folder := joinSegments base package.segments.dropLast
    if last ≠ "" && tree.isFolder (folder.join last) then
      candidatesIn tree (folder.join last) "" extension
    else candidatesIn tree folder last extension

end SymbolAtlas
