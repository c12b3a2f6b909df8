import SymbolAtlas.Text.Dictionary
import SymbolAtlas.Text.Split

/-!
# Paths

A path is kept as it was spelled, but it is compared by its components:
repeated slashes, trailing slashes and inner `.` segments make no difference,
and `..` is a component like any other.  Two spellings of one component list
name the same path.

## Main Definitions

* `Path`, and `Path.components`, by which paths are compared (`Path.same`),
  ordered (`Path.before`) and tested for lying beneath a directory
  (`Path.isBeneath`).
* `Path.parent?`, `Path.fileName?`, `Path.extension?`: taking a path apart.
* `Path.join`: putting one together.
* `EntryName`: a name that an entry of a folder can have.
* `Path.ofNames`: the absolute path through the given names.

## Design Notes

`parent?` and `join` work on the spelling and leave the rest of it alone, so the
path that an answer shows is a prefix or an extension of one that was given.
-/

namespace SymbolAtlas

/-- A path, as it was spelled. -/
structure Path where
  spelling : String
deriving DecidableEq, Repr, Inhabited

/-- One step of a path. -/
inductive Component where
  /-- The top of the tree, where absolute paths start. -/
  | root
  /-- A leading `.`, which says that the path starts from the working directory. -/
  | here
  /-- A `..`, one directory up. -/
  | up
  /-- An entry of a directory. -/
  | name (text : String)
deriving DecidableEq, Repr

namespace Component

/-- Components of different sorts are ordered by this number. -/
def rank : Component → Nat
  | root => 0
  | here => 1
  | up => 2
  | name _ => 3

/-- The order of components: by sort, and names among themselves as names. -/
def before : Component → Component → Bool
  | name a, name b => nameBefore a b
  | a, b => a.rank < b.rank

/-- The component that a segment between slashes stands for, if any. -/
def ofSegment? (segment : String) : Option Component :=
  if segment = "" then none
  else if segment = "." then none
  else if segment = ".." then some up
  else some (name segment)

end Component

/-- Whether a text can be the name of an entry: it is not empty, not `.` or `..`,
and has neither a slash nor a null character in it. -/
def IsEntryName (text : String) : Prop :=
  text ≠ "" ∧ text ≠ "." ∧ text ≠ ".." ∧ '/' ∉ text.toList ∧ '\x00' ∉ text.toList

instance (text : String) : Decidable (IsEntryName text) := by
  unfold IsEntryName; infer_instance

/-- A name that an entry of a folder can have. -/
structure EntryName where
  text : String
  isEntryName : IsEntryName text
deriving DecidableEq, Repr

/-- The entry name that a text spells, if it spells one. -/
def EntryName.ofString? (text : String) : Option EntryName :=
  if h : IsEntryName text then some ⟨text, h⟩ else none

namespace Path

/-- The empty path. -/
def empty : Path := ⟨""⟩

/-- The pieces between the slashes, the empty ones too. -/
def segments (p : Path) : List String := splitNames '/' p.spelling

/-- Whether a path starts at the top of the tree. -/
def isAbsolute (p : Path) : Bool := p.spelling.toList.head? == some '/'

/-- The components of a path. -/
def components (p : Path) : List Component :=
  if p.isAbsolute then .root :: p.segments.filterMap Component.ofSegment?
  else if p.segments.head? = some "." then .here :: p.segments.filterMap Component.ofSegment?
  else p.segments.filterMap Component.ofSegment?

/-- Two spellings name the same path when their components agree. -/
def same (p q : Path) : Bool := p.components == q.components

/-- Paths are ordered by their components, as in a dictionary. -/
def before (p q : Path) : Bool :=
  dictionaryBefore Component.before p.components q.components

/-- Whether a path is a directory or lies beneath it, going by components. -/
def isBeneath (p dir : Path) : Bool := dir.components.isPrefixOf p.components

/-! ### Taking a path apart -/

/-- Whether a segment adds nothing to a path. -/
def isIdle (segment : String) : Bool := segment = "" || segment = "."

/-- The segments without the idle ones at the end. -/
def dropIdle (segments : List String) : List String :=
  (segments.reverse.dropWhile isIdle).reverse

/-- The segments of a path without the last that adds to it, and without idle
ones at the end; nothing when all are idle. -/
def dropLastStep? (segments : List String) : Option (List String) :=
  match dropIdle segments with
  | [] => none
  | kept => some (dropIdle kept.dropLast)

/-- The directory that a path lies in: its spelling up to the last step.  The
empty path and the top of the tree lie in none. -/
def parent? (p : Path) : Option Path :=
  if p.isAbsolute then
    (dropLastStep? p.segments.tail).map fun kept => ⟨"/" ++ joinNames '/' kept⟩
  else if p.segments.head? = some "." then
    match dropLastStep? p.segments.tail with
    | none => some empty
    | some kept => some ⟨joinNames '/' ("." :: kept)⟩
  else
    (dropLastStep? p.segments).map fun kept => ⟨joinNames '/' kept⟩

/-- The directory that a path lies in, the empty path when there is none. -/
def parent (p : Path) : Path := p.parent?.getD empty

/-- The last name of a path, unless it ends in `..` or at the top. -/
def fileName? (p : Path) : Option String :=
  match p.components.getLast? with
  | some (.name text) => some text
  | _ => none

/-- Cut a name at its last dot.  A dot at the very beginning does not count. -/
def cutExtension? (name : String) : Option (String × String) :=
  let backwards := name.toList.reverse
  match backwards.dropWhile (· ≠ '.') with
  | [] => none
  | [_] => none
  | _ :: stem =>
    some (String.ofList stem.reverse, String.ofList (backwards.takeWhile (· ≠ '.')).reverse)

/-- The extension of a name: what follows its last dot. -/
def nameExtension? (name : String) : Option String := (cutExtension? name).map (·.2)

/-- A name without its extension. -/
def nameStem (name : String) : String :=
  match cutExtension? name with
  | some (stem, _) => stem
  | none => name

/-- The extension of the last name of a path. -/
def extension? (p : Path) : Option String := p.fileName?.bind nameExtension?

/-! ### Putting a path together -/

/-- Extend a path by a relative one; an absolute one takes its place. -/
def join (p : Path) (more : String) : Path :=
  if more.toList.head? == some '/' then ⟨more⟩
  else if p.spelling = "" || p.spelling.toList.getLast? == some '/' then ⟨p.spelling ++ more⟩
  else ⟨p.spelling ++ "/" ++ more⟩

/-- The absolute path through the given names. -/
def ofNames (names : List EntryName) : Path := ⟨"/" ++ joinNames '/' (names.map (·.text))⟩

theorem segments_ofNames {names : List EntryName} (h : names ≠ []) :
    (ofNames names).segments = "" :: names.map (·.text) := by
  have hcut : cutAt '/' (joinPieces '/' ((names.map (·.text)).map String.toList)) =
      (names.map (·.text)).map String.toList := by
    refine cutAt_joinPieces (by simpa using h) ?_
    intro piece hpiece
    simp only [List.map_map, List.mem_map] at hpiece
    obtain ⟨name, -, rfl⟩ := hpiece
    exact name.isEntryName.2.2.2.1
  have hlist : (ofNames names).spelling.toList =
      '/' :: joinPieces '/' ((names.map (·.text)).map String.toList) := by
    simp [ofNames, joinNames]
  simp only [segments, splitNames, hlist, cutAt, if_true, hcut]
  simp

theorem ofSegment?_entryName (name : EntryName) :
    Component.ofSegment? name.text = some (.name name.text) := by
  obtain ⟨h₁, h₂, h₃, -⟩ := name.isEntryName
  simp [Component.ofSegment?, h₁, h₂, h₃]

/-- The components of an absolute path through names are these names. -/
theorem components_ofNames (names : List EntryName) :
    (ofNames names).components = .root :: names.map (.name ·.text) := by
  have habs : (ofNames names).isAbsolute = true := by simp [isAbsolute, ofNames]
  have hseg : (ofNames names).segments.filterMap Component.ofSegment? =
      names.map (.name ·.text) := by
    by_cases h : names = []
    · subst h; decide +kernel
    · rw [segments_ofNames h, List.filterMap_cons, List.filterMap_map]
      have : Component.ofSegment? "" = none := rfl
      simp only [this]
      rw [← List.filterMap_eq_map]
      congr 1
      funext name
      exact ofSegment?_entryName name
  simp [components, habs, hseg]

/-- Absolute paths through names are the same only when the names are. -/
theorem same_ofNames {a b : List EntryName} : (ofNames a).same (ofNames b) = true ↔ a = b := by
  simp only [same, components_ofNames, beq_iff_eq, List.cons.injEq, true_and]
  refine List.map_inj_right fun x y h => ?_
  cases x; cases y
  simpa using h

end Path

end SymbolAtlas
