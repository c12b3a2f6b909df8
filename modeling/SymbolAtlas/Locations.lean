import SymbolAtlas.Path
import SymbolAtlas.Text.Position

/-!
# Locations by module

A set of locations, kept by module: modules in path order, each under the
spelling with which it was first mentioned, and the spans of a module in order
and without repetition.

## Main Definitions

* `alterEntry`: change what is kept for a module.
* `Locations`, with `Locations.add` and `Locations.withoutEmpty`.
* `Locations.pairs`: the locations one by one.
-/

namespace SymbolAtlas

/-- Change what is kept under a module, in entries that are in path order.  A module
without an entry is given one, in its place, that was empty before. -/
def alterEntry {α : Type} (module : Path) (change : List α → List α) :
    List (Path × List α) → List (Path × List α)
  | [] => [(module, change [])]
  | (other, old) :: rest =>
    if module.before other then (module, change []) :: (other, old) :: rest
    else if other.before module then (other, old) :: alterEntry module change rest
    else (other, change old) :: rest

/-- Spans by module. -/
structure Locations where
  entries : List (Path × List Span)
deriving DecidableEq, Repr

/-- Insert spans into a list that is in order. -/
def mergeSpans (spans old : List Span) : List Span :=
  spans.foldl (fun acc span => insertSorted Span.before span acc) old

namespace Locations

/-- No locations. -/
def empty : Locations := ⟨[]⟩

/-- Enter spans under a module, which is mentioned even if there are none. -/
def add (l : Locations) (module : Path) (spans : List Span) : Locations :=
  ⟨alterEntry module (mergeSpans spans) l.entries⟩

/-- The locations without the modules that have none. -/
def withoutEmpty (l : Locations) : Locations :=
  ⟨l.entries.filter (!·.2.isEmpty)⟩

/-- The locations one by one, by module and then by place. -/
def pairs (l : Locations) : List (Path × Span) :=
  l.entries.flatMap fun entry => entry.2.map (entry.1, ·)

end Locations

end SymbolAtlas
