import SymbolAtlas.Path

/-!
# File trees

A file tree is the part of a disk that requests look at: directories, files with
their contents, and the working directory from which relative paths start.  It
is an ordinary value, so a request is a function of it.

Every entry is a file or a folder.  Symbolic links and special files are left out, and
with them what they would change: here a name leads to one entry, `..` leads to the
folder that holds the place reached so far, and no place has two canonical paths.

## Main Definitions

* `Contents`, `Entry`, `FileTree`.
* `ReadError`: why a file cannot be read.
* `FileTree.locate`: the names along which a path leads through the tree.
* `FileTree.canonical`: the one spelling of the place that a path leads to.
* `FileTree.isFile`, `FileTree.isFolder`, `FileTree.readText`,
  `FileTree.children?`.
* `Entry.walk`: the files below an entry, siblings in the order of their names.
-/

namespace SymbolAtlas

/-- What a file holds: text, or bytes that are not the UTF-8 form of a text. -/
inductive Contents where
  | text (source : String)
  | undecodable
deriving DecidableEq, Repr

/-- The contents that some bytes make up. -/
def Contents.ofBytes (bytes : ByteArray) : Contents :=
  match String.fromUTF8? bytes with
  | some source => .text source
  | none => .undecodable

/-- An entry of a file tree: a file, or a folder of named entries, and never a link.  Of
several children with one name only the first counts. -/
inductive Entry where
  | file (contents : Contents)
  | folder (children : List (EntryName × Entry))

/-- Why a file cannot be read. -/
inductive ReadError where
  | missing
  | notFolder
  | isFolder
  | undecodable
  /-- The path has a null character in it. -/
  | nullInPath
  /-- Any other failure, in the words of whoever reports it. -/
  | other (text : String)
deriving DecidableEq, Repr

/-- What is reported for a file that cannot be read. -/
def ReadError.message : ReadError → String
  | missing => "No such file or directory (os error 2)"
  | notFolder => "Not a directory (os error 20)"
  | isFolder => "Is a directory (os error 21)"
  | undecodable => "stream did not contain valid UTF-8"
  | nullInPath => "file name contained an unexpected NUL byte"
  | other text => text

/-- The children of a folder as a listing shows them: in the order of their
names, and one for each name. -/
def byName {α : Type} (children : List (EntryName × α)) : List (EntryName × α) :=
  sorted (fun a b => nameBefore a.1.text b.1.text) children

namespace Entry

/-- The entry that is reached through the given names. -/
def at? : Entry → List EntryName → Option Entry
  | entry, [] => some entry
  | folder children, name :: names =>
    match children.lookup name with
    | some child => child.at? names
    | none => none
  | file _, _ :: _ => none

mutual

/-- The files below an entry, each given by the names that lead to it.  Siblings
are visited in the order of their names. -/
def walk : Entry → List (List EntryName)
  | file _ => [[]]
  | folder children => (byName (walkEach children)).flatMap fun child => child.2.map (child.1 :: ·)

/-- The files below each of some named entries. -/
def walkEach : List (EntryName × Entry) → List (EntryName × List (List EntryName))
  | [] => []
  | (name, entry) :: rest => (name, entry.walk) :: walkEach rest

end

end Entry

/-- A file tree with a working directory. -/
structure FileTree where
  /-- The entries of the folder at the top. -/
  children : List (EntryName × Entry)
  /-- The names that lead to the working directory. -/
  workingFolder : List EntryName

namespace FileTree

/-- The folder at the top of a tree. -/
def top (tree : FileTree) : Entry := .folder tree.children

/-- The entry that is reached from the top through the given names. -/
def at? (tree : FileTree) (names : List EntryName) : Option Entry := tree.top.at? names

/-- Walk along segments from the entry reached through `names`.  Every segment
is taken from a folder: an empty one and `.` stay there, `..` goes one folder up
and any other must be the name of an entry. -/
def follow (tree : FileTree) :
    List EntryName → List String → Except ReadError (List EntryName)
  | names, [] => .ok names
  | names, segment :: rest =>
    match tree.at? names with
    | some (.folder children) =>
      if segment = "" || segment = "." then tree.follow names rest
      else if segment = ".." then tree.follow names.dropLast rest
      else
        match children.find? (·.1.text = segment) with
        | some child => tree.follow (names ++ [child.1]) rest
        | none => .error .missing
    | some (.file _) => .error .notFolder
    | none => .error .missing

/-- The names that lead to the entry that a path stands for. -/
def locate (tree : FileTree) (p : Path) : Except ReadError (List EntryName) :=
  if p.spelling = "" then .error .missing
  else if p.spelling.toList.contains '\x00' then .error .nullInPath
  else tree.follow (if p.isAbsolute then [] else tree.workingFolder) p.segments

/-- The entry that a path stands for. -/
def entry? (tree : FileTree) (p : Path) : Option Entry :=
  match tree.locate p with
  | .ok names => tree.at? names
  | .error _ => none

/-- The one spelling of the place that a path leads to.  A path that leads
nowhere is left as it is. -/
def canonical (tree : FileTree) (p : Path) : Path :=
  match tree.locate p with
  | .ok names => .ofNames names
  | .error _ => p

/-- Whether a path leads to a file. -/
def isFile (tree : FileTree) (p : Path) : Bool :=
  match tree.entry? p with
  | some (.file _) => true
  | _ => false

/-- Whether a path leads to a folder. -/
def isFolder (tree : FileTree) (p : Path) : Bool :=
  match tree.entry? p with
  | some (.folder _) => true
  | _ => false

/-- The entries of the folder that a path leads to, in the order of their names. -/
def children? (tree : FileTree) (p : Path) : Option (List (EntryName × Entry)) :=
  match tree.entry? p with
  | some (.folder children) => some (byName children)
  | _ => none

/-- The text of the file that a path leads to. -/
def readText (tree : FileTree) (p : Path) : Except ReadError String :=
  match tree.locate p with
  | .error e => .error e
  | .ok names =>
    match tree.at? names with
    | some (.file (.text source)) => .ok source
    | some (.file .undecodable) => .error .undecodable
    | some (.folder _) => .error .isFolder
    | none => .error .missing

/-- The number of files in the tree. -/
def fileCount (tree : FileTree) : Nat := tree.top.walk.length

end FileTree

end SymbolAtlas
