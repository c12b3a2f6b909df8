/-!
# Dictionary order and sorted lists

Names are ordered by the code points of their characters, and paths by their
components, in both cases the way a dictionary orders words.  The lists that
answers show in order are built by sorted insertion, which keeps one of several
equivalent elements: the one that was inserted first.

## Main Definitions

* `dictionaryBefore`: the dictionary order over an order of letters.
* `nameBefore`: the order of names.
* `insertSorted` and `sorted`: strictly increasing lists.
-/

namespace SymbolAtlas

/-- The dictionary order on words over an alphabet ordered by `before`: at the
first place where two words differ the smaller letter decides, and a word comes
before its proper extensions. -/
def dictionaryBefore {α : Type} (before : α → α → Bool) : List α → List α → Bool
  | _, [] => false
  | [], _ :: _ => true
  | a :: as, b :: bs => before a b || (!before b a && dictionaryBefore before as bs)

/-- Characters are ordered by code point. -/
def charBefore (a b : Char) : Bool := a.toNat < b.toNat

/-- Names are ordered as words of characters. -/
def nameBefore (a b : String) : Bool :=
  dictionaryBefore charBefore a.toList b.toList

/-- Insert an element into a strictly increasing list.  An element equivalent to
one already present is left out. -/
def insertSorted {α : Type} (before : α → α → Bool) (x : α) : List α → List α
  | [] => [x]
  | y :: ys =>
    if before x y then x :: y :: ys
    else if before y x then y :: insertSorted before x ys
    else y :: ys

/-- The strictly increasing list of the elements of a list, the first of several
equivalent ones being kept. -/
def sorted {α : Type} (before : α → α → Bool) (xs : List α) : List α :=
  xs.foldl (fun acc x => insertSorted before x acc) []

end SymbolAtlas
