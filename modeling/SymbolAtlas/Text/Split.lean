/-!
# Cutting a text at a separator

Paths are cut at slashes and package names at dots.  `cutAt` keeps every
piece, the empty ones too, so joining the pieces gives the text back.

## Main Definitions

* `cutAt` on characters and `splitNames` on strings.
* `joinNames`: the pieces with the separator between them.

Cutting and joining undo each other: `joinPieces_cutAt` for every text, and
`cutAt_joinPieces` for pieces without separators in them.
-/

namespace SymbolAtlas

/-- Cut a text at every separator.  There is always one more piece than there
are separators. -/
def cutAt (separator : Char) : List Char → List (List Char)
  | [] => [[]]
  | c :: cs =>
    if c = separator then [] :: cutAt separator cs
    else
      match cutAt separator cs with
      | [] => [[c]]
      | piece :: pieces => (c :: piece) :: pieces

/-- Cut a string at every separator. -/
def splitNames (separator : Char) (text : String) : List String :=
  (cutAt separator text.toList).map String.ofList

/-- The pieces with a separator between each two of them. -/
def joinPieces (separator : Char) : List (List Char) → List Char
  | [] => []
  | [piece] => piece
  | piece :: pieces => piece ++ separator :: joinPieces separator pieces

/-- The names with a separator between each two of them. -/
def joinNames (separator : Char) (names : List String) : String :=
  String.ofList (joinPieces separator (names.map String.toList))

theorem cutAt_ne_nil (separator : Char) (cs : List Char) : cutAt separator cs ≠ [] := by
  induction cs with
  | nil => simp [cutAt]
  | cons c cs ih =>
    simp only [cutAt]
    split
    · simp
    · split <;> simp

/-- The first piece begins with the first character of the text, if that is no separator. -/
theorem exists_cutAt_cons {separator c : Char} (h : c ≠ separator) (cs : List Char) :
    ∃ piece pieces, cutAt separator (c :: cs) = (c :: piece) :: pieces := by
  rw [cutAt, if_neg h]
  cases cutAt separator cs with
  | nil => exact ⟨[], [], rfl⟩
  | cons piece pieces => exact ⟨piece, pieces, rfl⟩

theorem joinPieces_cons {separator : Char} {piece : List Char} {pieces : List (List Char)}
    (h : pieces ≠ []) :
    joinPieces separator (piece :: pieces) = piece ++ separator :: joinPieces separator pieces := by
  cases pieces with
  | nil => exact absurd rfl h
  | cons next rest => rfl

/-- Joining the pieces of a text gives the text back. -/
theorem joinPieces_cutAt (separator : Char) (cs : List Char) :
    joinPieces separator (cutAt separator cs) = cs := by
  induction cs with
  | nil => rfl
  | cons c cs ih =>
    simp only [cutAt]
    split
    · next h => rw [joinPieces_cons (cutAt_ne_nil separator cs), ih, h, List.nil_append]
    · match hcut : cutAt separator cs, cutAt_ne_nil separator cs with
      | [piece], _ => simpa [hcut, joinPieces] using ih
      | piece :: next :: rest, _ => simpa [hcut, joinPieces] using ih

/-- No piece of a text has a separator in it. -/
theorem notMem_of_mem_cutAt {separator : Char} {cs piece : List Char}
    (h : piece ∈ cutAt separator cs) : separator ∉ piece := by
  induction cs generalizing piece with
  | nil =>
    rw [cutAt, List.mem_singleton] at h
    rw [h]
    exact List.not_mem_nil
  | cons c cs ih =>
    simp only [cutAt] at h
    split at h
    · rcases List.mem_cons.1 h with rfl | h
      · exact List.not_mem_nil
      · exact ih h
    · next hc =>
      match hcut : cutAt separator cs, cutAt_ne_nil separator cs with
      | first :: pieces, _ =>
        rw [hcut] at h ih
        rcases List.mem_cons.1 h with rfl | h
        · simp only [List.mem_cons, not_or]
          exact ⟨Ne.symm hc, ih List.mem_cons_self⟩
        · exact ih (List.mem_cons_of_mem first h)

theorem cutAt_eq_singleton {separator : Char} {piece : List Char} (h : separator ∉ piece) :
    cutAt separator piece = [piece] := by
  induction piece with
  | nil => rfl
  | cons c cs ih =>
    simp only [List.mem_cons, not_or] at h
    simp [cutAt, Ne.symm h.1, ih h.2]

theorem cutAt_append {separator : Char} {piece : List Char} (h : separator ∉ piece)
    (rest : List Char) :
    cutAt separator (piece ++ separator :: rest) = piece :: cutAt separator rest := by
  induction piece with
  | nil => simp [cutAt]
  | cons c cs ih =>
    simp only [List.mem_cons, not_or] at h
    simp [cutAt, Ne.symm h.1, ih h.2]

/-- A text is cut at each of its separators, so the two sides of one are cut apart. -/
theorem cutAt_append_separator (separator : Char) (front rest : List Char) :
    cutAt separator (front ++ separator :: rest) =
      cutAt separator front ++ cutAt separator rest := by
  induction front with
  | nil => simp [cutAt]
  | cons c front ih =>
    simp only [List.cons_append, cutAt, ih]
    split
    · rfl
    · match hcut : cutAt separator front, cutAt_ne_nil separator front with
      | piece :: pieces, _ => rfl

/-- Pieces without separators in them come back when their joined text is cut. -/
theorem cutAt_joinPieces {separator : Char} {pieces : List (List Char)} (hne : pieces ≠ [])
    (h : ∀ piece ∈ pieces, separator ∉ piece) :
    cutAt separator (joinPieces separator pieces) = pieces := by
  induction pieces with
  | nil => exact absurd rfl hne
  | cons piece pieces ih =>
    cases pieces with
    | nil => exact cutAt_eq_singleton (h piece (by simp))
    | cons next rest =>
      rw [joinPieces_cons (by simp), cutAt_append (h piece (by simp)),
        ih (by simp) fun q hq => h q (List.mem_cons_of_mem piece hq)]

end SymbolAtlas
