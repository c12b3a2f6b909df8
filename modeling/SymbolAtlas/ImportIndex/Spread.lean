import SymbolAtlas.ImportIndex.Basic
import SymbolAtlas.Locations

/-!
# Following a name through imports

A name that is imported without an alias is the same name in both modules, so a
rename or a search for references has to treat all of them together.  Climbing
leads from a binding to the one that owns its name, and spreading leads from
there to every location that is bound to it.

## Main Definitions

* `ImportIndex.rootBinding`: the binding that owns the name of a binding.
* `ImportIndex.spread`: all locations that are bound to a binding.

## Design Notes

Both walks are bounded by the size of the index.  A climb passes each import at
most once, and each import of a binding puts at most one further binding on the
agenda of a spread.
-/

namespace SymbolAtlas.ImportIndex

/-- One step of a climb: the binding that a binding is an unaliased import of.
A module that is not indexed is an error. -/
def climbStep (index : ImportIndex) (b : Binding) : Except Path (Option Binding) :=
  match index.module? b.module with
  | none => .error b.module
  | some m =>
    match m.table.lookup b.name with
    | some (.imported symbol) => .ok (if symbol.aliased then none else some symbol.sourceBinding)
    | _ => .ok none

/-- Climb from a binding, in at most the given number of steps, until there is
no step to take or it leads back to a binding that was visited. -/
def climb (index : ImportIndex) : Nat → List Binding → Binding → Except Path Binding
  | 0, _, current => .ok current
  | steps + 1, visited, current =>
    match index.climbStep current with
    | .error missing => .error missing
    | .ok none => .ok current
    | .ok (some next) =>
      if (current :: visited).any (·.same next) then .ok current
      else index.climb steps (current :: visited) next

/-- The binding that owns the name of a binding: a declaration, an import with
an alias, or the last binding before a cycle closes.  A module on the way that
is not indexed is an error. -/
def rootBinding (index : ImportIndex) (start : Binding) : Except Path Binding :=
  index.climb (index.importCount + 1) [] start

/-- The locations found at one binding: the uses of its name in its module, and
the names that aliased imports of it mention. -/
def visit (index : ImportIndex) (b : Binding) (found : Locations) : Locations :=
  let atHome :=
    match index.module? b.module with
    | some m => found.add b.module (m.table.usesOf b.name)
    | none => found
  ((index.importersOf b).filter (·.aliased)).foldl
    (fun found i => found.add i.module [i.sourceSpan]) atHome

/-- Work off an agenda of bindings, of which at most the given number are taken
up.  Unaliased imports of a binding are put in front, the last one first. -/
def spreadFrom (index : ImportIndex) :
    Nat → List Binding → List Binding → Locations → Locations
  | 0, _, _, found => found
  | _ + 1, [], _, found => found
  | steps + 1, b :: agenda, visited, found =>
    if visited.any (·.same b) then index.spreadFrom steps agenda visited found
    else
      let unaliased := (index.importersOf b).filter (!·.aliased)
      index.spreadFrom steps ((unaliased.map Importer.binding).reverse ++ agenda) (b :: visited)
        (index.visit b found)

/-- All locations that are bound to a binding: its uses in its own module, the
uses of unaliased imports of it, of unaliased imports of those, and so on, and
the names that aliased imports of any of them mention. -/
def spread (index : ImportIndex) (root : Binding) : Locations :=
  (index.spreadFrom (index.edgeCount + 1) [root] [] .empty).withoutEmpty

end SymbolAtlas.ImportIndex
