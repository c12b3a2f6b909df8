import SymbolAtlas.FileTree.Basic

/-!
# Changing a file tree

Files appear, change and vanish between requests, and sometimes during one.
These operations give the tree after such a change.

## Main Definitions

* `FileTree.bare`: a tree with nothing in it but the working directory.
* `FileTree.write`: a file gets contents, its folders being made as needed.
* `FileTree.makeFolder`: a folder is made, with those it lies in.
* `FileTree.delete`: a file or a whole folder goes away.
-/

namespace SymbolAtlas

/-- The entries of a folder after one of them was replaced, or added at the end
when there was none of that name. -/
def putChild (name : EntryName) (entry : Entry) :
    List (EntryName × Entry) → List (EntryName × Entry)
  | [] => [(name, entry)]
  | (other, old) :: rest =>
    if other = name then (name, entry) :: rest else (other, old) :: putChild name entry rest

/-- What stands at the place reached through some names, after a change there.
Folders on the way are made when they are missing; a file on the way stands
against the change, which is then not made. -/
def Entry.alter (change : Option Entry → Entry) : List EntryName → Option Entry → Entry
  | [], old => change old
  | name :: names, none => folder [(name, alter change names none)]
  | name :: names, some (folder children) =>
    folder (putChild name (alter change names (children.lookup name)) children)
  | _ :: _, some (file contents) => file contents

/-- The entries of a folder without what is reached through some names. -/
def withoutEntry : List EntryName → List (EntryName × Entry) → List (EntryName × Entry)
  | [], children => children
  | [name], children => children.filter (·.1 ≠ name)
  | name :: names, children =>
    match children.lookup name with
    | some (.folder inner) => putChild name (.folder (withoutEntry names inner)) children
    | _ => children

namespace FileTree

/-- The names that some segments spell after those there are already, `..` being
resolved by spelling. -/
def spell (names : List EntryName) (segments : List String) : List EntryName :=
  segments.foldl
    (fun names segment =>
      if segment = ".." then names.dropLast
      else names ++ (EntryName.ofString? segment).toList)
    names

/-- The names that a path spells. -/
def spelledNames (tree : FileTree) (p : Path) : List EntryName :=
  spell (if p.isAbsolute then [] else tree.workingFolder) p.segments

/-- The tree after a change at the place reached through some names.  The top
itself is not changed. -/
def alter (tree : FileTree) (change : Option Entry → Entry) : List EntryName → FileTree
  | [] => tree
  | name :: names =>
    { tree with
      children := putChild name (Entry.alter change names (tree.children.lookup name))
        tree.children }

/-- The tree after a file got contents. -/
def write (tree : FileTree) (p : Path) (contents : Contents) : FileTree :=
  tree.alter (fun _ => .file contents) (tree.spelledNames p)

/-- The tree after a folder was made; what is there already stays. -/
def makeFolder (tree : FileTree) (p : Path) : FileTree :=
  tree.alter (fun old => old.getD (.folder [])) (tree.spelledNames p)

/-- The tree after a file or a whole folder was deleted. -/
def delete (tree : FileTree) (p : Path) : FileTree :=
  { tree with children := withoutEntry (tree.spelledNames p) tree.children }

/-- A tree with nothing in it but the working directory. -/
def bare (workingFolder : Path) : FileTree :=
  makeFolder ⟨[], spell [] workingFolder.segments⟩ workingFolder

end FileTree

end SymbolAtlas
