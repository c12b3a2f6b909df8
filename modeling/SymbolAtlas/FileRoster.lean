import SymbolAtlas.Path

/-!
# File rosters

A roster gives files numbers in the order in which they are entered, and keeps the
text that was read for a number.  Two spellings of one path are one file, which
keeps the spelling under which it was entered first, and the number it was given.

## Main Definitions

* `FileId`, `FileRoster`.
* `FileRoster.insert`, `FileRoster.idOf?`, `FileRoster.path?`.
* `FileRoster.setText`, `FileRoster.text?`.
-/

namespace SymbolAtlas

/-- The number of a file in a roster.  It has no bound: numbers of 32 bits would begin
again after 2^32 files, and no roster here does. -/
structure FileId where
  index : Nat
deriving DecidableEq, Repr

/-- A file number as people read it. -/
def FileId.display (id : FileId) : String := "module#" ++ toString id.index

/-- Numbered files and the texts that were read. -/
structure FileRoster where
  /-- The files and the numbers they were given, in the order in which they were entered. -/
  entries : List (Path × FileId)
  /-- The texts that were set, the latest first. -/
  texts : List (FileId × String)
  /-- The number that a file was given is its place among the entries. -/
  numbered : entries.map (·.2) = (List.range entries.length).map FileId.mk
deriving DecidableEq, Repr

namespace FileRoster

/-- A roster with no files. -/
def empty : FileRoster := ⟨[], [], rfl⟩

/-- How many files there are. -/
def size (r : FileRoster) : Nat := r.entries.length

/-- The paths of all files, as they were first spelled. -/
def paths (r : FileRoster) : List Path := r.entries.map (·.1)

/-- The number that a file was given, if it was entered. -/
def idOf? (r : FileRoster) (p : Path) : Option FileId :=
  (r.entries.find? (·.1.same p)).map (·.2)

/-- The roster with one more file, which is given the next number. -/
def push (r : FileRoster) (p : Path) : FileRoster :=
  { r with
    entries := r.entries ++ [(p, ⟨r.size⟩)]
    numbered := by simp [r.numbered, size, List.range_succ] }

/-- Enter a file unless it is there already, and give its number. -/
def insert (r : FileRoster) (p : Path) : FileId × FileRoster :=
  match r.idOf? p with
  | some id => (id, r)
  | none => (⟨r.size⟩, r.push p)

/-- Enter several files in order. -/
def insertAll (r : FileRoster) (paths : List Path) : FileRoster :=
  paths.foldl (fun r p => (r.insert p).2) r

/-- The path of a file, as it was first spelled. -/
def path? (r : FileRoster) (id : FileId) : Option Path := r.entries[id.index]?.map (·.1)

/-- Keep a text under a number. -/
def setText (r : FileRoster) (id : FileId) (text : String) : FileRoster :=
  { r with texts := (id, text) :: r.texts }

/-- The text that was last kept under a number. -/
def text? (r : FileRoster) (id : FileId) : Option String := r.texts.lookup id

/-- Whether there are no files. -/
def isEmpty (r : FileRoster) : Bool := r.size == 0

/-- The numbers of all files, in the order in which they were given. -/
def ids (r : FileRoster) : List FileId := r.entries.map (·.2)

end FileRoster

end SymbolAtlas
