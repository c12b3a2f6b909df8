import SymbolAtlas.Proofs.Files
import SymbolAtlas.Proofs.Repeats

/-!
# Rosters with a history

Files are entered into a roster and texts are set in it, in any order.  The number
of a file is the place of its first spelling among all first spellings, so a number
once given stays with its file, however the file is spelled later.  Texts are set
under numbers and not under files: a text may be there before the file is.

## Main Definitions

* `RosterStep`, `FileRoster.after`: a change of a roster, and the roster after some
  changes.
* `firstSpellings`, `lastText`: what a history leaves of its paths and of its texts.
* `TracksFiles`: a roster holds what its history leaves.

## Main Statements

* `FileRoster.idOf?_insert`, `FileRoster.text?_insert`, `FileRoster.text?_setText`:
  what one change does to numbers and texts.
* `FileRoster.paths_after`, `FileRoster.text?_after`: what all changes do.
* `roster_tracksFiles`: whatever its history, a roster holds what it leaves.
-/

namespace SymbolAtlas

theorem Path.same_comm (p q : Path) : p.same q = q.same p := by
  rw [Path.same, Path.same, BEq.comm]

theorem Path.same_congr {p q : Path} (h : p.same q = true) (r : Path) : r.same p = r.same q := by
  rw [Path.same, Path.same, Path.same_iff.1 h]

/-! ## One change -/

namespace FileRoster

variable {r : FileRoster} {p q : Path} {id : FileId}

/-- Two spellings of a path have the same number. -/
theorem idOf?_congr (h : p.same q = true) : r.idOf? p = r.idOf? q := by
  simp only [idOf?, Path.same_congr h]

theorem idOf?_eq_none_iff : r.idOf? p = none ↔ ∀ q ∈ r.paths, q.same p = false := by
  simp [idOf?_eq]

/-- A number that is found is the place of a spelling of the path. -/
theorem exists_path?_of_idOf? (h : r.idOf? p = some id) :
    ∃ q, r.path? id = some q ∧ q.same p = true := by
  obtain ⟨hindex, hsame⟩ := exists_of_idOf? h
  exact ⟨r.paths[id.index], r.path?_eq id ▸ List.getElem?_eq_getElem hindex, hsame⟩

/-- Only the spellings of one path share a number. -/
theorem same_of_idOf? (hp : r.idOf? p = some id) (hq : r.idOf? q = some id) :
    p.same q = true := by
  obtain ⟨first, hfirst, hsame⟩ := exists_path?_of_idOf? hp
  obtain ⟨first', hfirst', hsame'⟩ := exists_path?_of_idOf? hq
  obtain rfl : first = first' := Option.some.inj (hfirst.symm.trans hfirst')
  exact Path.same_trans (Path.same_symm hsame) hsame'

theorem fst_insert (r : FileRoster) (p : Path) :
    (r.insert p).1 = (r.idOf? p).getD ⟨r.size⟩ := by
  cases h : r.idOf? p with
  | some id => rw [insert_of_idOf? h, Option.getD_some]
  | none => rw [insert_of_new h, Option.getD_none]

/-- After a file was entered its spellings have the number that was given, and all
other paths have the number they had. -/
theorem idOf?_insert (r : FileRoster) (p q : Path) :
    (r.insert p).2.idOf? q = if p.same q then some (r.insert p).1 else r.idOf? q := by
  cases hp : r.idOf? p with
  | some id =>
    rw [insert_of_idOf? hp]
    split
    · next hsame => rw [← idOf?_congr hsame, hp]
    · rfl
  | none =>
    rw [insert_of_new hp]
    rw [idOf?, push, List.find?_append, List.find?_singleton, Option.map_or, ← idOf?]
    split
    · next hsame => rw [← idOf?_congr hsame, hp]; rfl
    · exact Option.or_none

theorem size_le_insert (r : FileRoster) (p : Path) : r.size ≤ (r.insert p).2.size := by
  rw [← length_paths, ← length_paths, paths_insert]
  split
  · exact Nat.le_refl _
  · exact List.length_append ▸ Nat.le_add_right _ _

theorem lt_size_insert (r : FileRoster) (p : Path) :
    (r.insert p).1.index < (r.insert p).2.size := by
  have hid : (r.insert p).2.idOf? p = some (r.insert p).1 := by
    rw [idOf?_insert, if_pos p.same_refl]
  exact length_paths _ ▸ (exists_of_idOf? hid).1

/-- Entering a file changes no text. -/
@[simp] theorem text?_insert (r : FileRoster) (p : Path) (id : FileId) :
    (r.insert p).2.text? id = r.text? id := by
  rw [text?, texts_insert, text?]

/-- Setting a text changes no other text. -/
theorem text?_setText (r : FileRoster) (id : FileId) (text : String) (other : FileId) :
    (r.setText id text).text? other = if other = id then some text else r.text? other := by
  rw [text?, setText, List.lookup_cons]
  by_cases h : other = id
  · simp [h]
  · simp [h, beq_false_of_ne h, text?]

end FileRoster

/-! ## Histories -/

/-- One change of a roster. -/
inductive RosterStep where
  | insert (p : Path)
  | setText (id : FileId) (text : String)

namespace RosterStep

/-- The roster after one more change. -/
def applyTo (r : FileRoster) : RosterStep → FileRoster
  | insert p => (r.insert p).2
  | setText id text => r.setText id text

/-- The path that is entered. -/
def path? : RosterStep → Option Path
  | insert p => some p
  | setText _ _ => none

/-- The text that is set under a number. -/
def textFor? (id : FileId) : RosterStep → Option String
  | insert _ => none
  | setText other text => if other = id then some text else none

end RosterStep

/-- The roster after some changes, of which the first is made to the roster with no
files. -/
def FileRoster.after (steps : List RosterStep) : FileRoster :=
  steps.foldl RosterStep.applyTo .empty

/-- The paths that were entered, in the spelling in which each was entered first. -/
def firstSpellings (steps : List RosterStep) : List Path :=
  (steps.filterMap RosterStep.path?).eraseDupsBy Path.same

/-- The text that was set last under a number. -/
def lastText (steps : List RosterStep) (id : FileId) : Option String :=
  (steps.filterMap (RosterStep.textFor? id)).getLast?

namespace FileRoster

theorem after_append (front back : List RosterStep) :
    after (front ++ back) = back.foldl RosterStep.applyTo (after front) :=
  List.foldl_append

theorem after_concat (steps : List RosterStep) (step : RosterStep) :
    after (steps ++ [step]) = step.applyTo (after steps) :=
  after_append steps [step]

/-- A roster has the first spellings of the paths that were entered, in their order. -/
theorem paths_after (steps : List RosterStep) : (after steps).paths = firstSpellings steps := by
  induction steps using List.reverseRecOn with
  | nil => rfl
  | append_singleton steps step ih =>
    rw [after_concat, firstSpellings, List.filterMap_append]
    cases step with
    | insert p =>
      show ((after steps).insert p).2.paths = (_ ++ [p]).eraseDupsBy Path.same
      rw [eraseDupsBy_concat, paths_insert, ih, firstSpellings]
      simp only [Path.same_comm]
    | setText id text =>
      show (after steps).paths = (_ ++ []).eraseDupsBy Path.same
      rw [List.append_nil, ih, firstSpellings]

/-- A roster has the texts that were set last. -/
theorem text?_after (steps : List RosterStep) (id : FileId) :
    (after steps).text? id = lastText steps id := by
  induction steps using List.reverseRecOn with
  | nil => rfl
  | append_singleton steps step ih =>
    rw [after_concat, lastText, List.filterMap_append]
    cases step with
    | insert p =>
      show ((after steps).insert p).2.text? id = (_ ++ []).getLast?
      rw [text?_insert, ih, List.append_nil, lastText]
    | setText other text =>
      show ((after steps).setText other text).text? id = _
      rw [text?_setText, ih]
      by_cases h : id = other
      · simp [RosterStep.textFor?, h]
      · simp [RosterStep.textFor?, h, Ne.symm h, lastText]

theorem size_after (steps : List RosterStep) :
    (after steps).size = (firstSpellings steps).length := by
  rw [← length_paths, paths_after]

/-- A path has a number once it was entered, in whatever spelling. -/
theorem idOf?_after_eq_none_iff {steps : List RosterStep} {q : Path} :
    (after steps).idOf? q = none ↔ ∀ p, .insert p ∈ steps → p.same q = false := by
  have hmem : ∀ p, p ∈ steps.filterMap RosterStep.path? ↔ .insert p ∈ steps := by
    intro p
    rw [List.mem_filterMap]
    constructor
    · rintro ⟨step, hstep, hpath⟩
      cases step with
      | insert p' => exact Option.some.inj hpath ▸ hstep
      | setText id text => cases hpath
    · intro hstep
      exact ⟨_, hstep, rfl⟩
  rw [idOf?_eq_none_iff, paths_after]
  constructor
  · intro hnew p hp
    obtain ⟨first, hfirst, hsame⟩ := exists_mem_eraseDupsBy Path.same_refl ((hmem p).2 hp)
    rw [Path.same_comm, Path.same_congr hsame, Path.same_comm]
    exact hnew first hfirst
  · intro hnew first hfirst
    exact hnew first ((hmem first).1 ((eraseDupsBy_sublist _ _).subset hfirst))

/-- What every change preserves, a history preserves. -/
theorem foldl_applyTo {P : FileRoster → Prop}
    (hstep : ∀ r step, P r → P (RosterStep.applyTo r step)) {r : FileRoster} (h : P r)
    (steps : List RosterStep) : P (steps.foldl RosterStep.applyTo r) := by
  induction steps generalizing r with
  | nil => exact h
  | cons step steps ih => exact ih (hstep r step h)

/-- No change takes the number of a path away. -/
theorem idOf?_applyTo {r : FileRoster} {q : Path} {id : FileId} (h : r.idOf? q = some id)
    (step : RosterStep) : (step.applyTo r).idOf? q = some id := by
  cases step with
  | setText other text => exact h
  | insert p =>
    show (r.insert p).2.idOf? q = some id
    rw [idOf?_insert]
    split
    · next hsame => rw [insert_of_idOf? ((idOf?_congr hsame).trans h)]
    · exact h

/-- No change gives a number another path or spelling. -/
theorem path?_applyTo {r : FileRoster} {p : Path} {id : FileId} (h : r.path? id = some p)
    (step : RosterStep) : (step.applyTo r).path? id = some p := by
  cases step with
  | setText other text => exact h
  | insert q =>
    rw [path?_eq] at h
    show (r.insert q).2.path? id = some p
    rw [path?_eq, paths_insert]
    split
    · exact h
    · rw [List.getElem?_append_left (List.getElem?_eq_some_iff.1 h).1]
      exact h

end FileRoster

/-! ## A roster holds what its history leaves -/

/-- A roster holds what its history leaves. -/
structure TracksFiles (steps : List RosterStep) (r : FileRoster) : Prop where
  /-- The numbers that were given count the different paths that were entered. -/
  ids : r.ids = (List.range (firstSpellings steps).length).map FileId.mk
  /-- In the order of their numbers, files stand as they were entered first. -/
  paths : r.ids.map r.path? = (firstSpellings steps).map some
  /-- The number that is kept for a path is the place where its first spelling stands. -/
  placed : ∀ p id, r.idOf? p = some id → ∃ q, r.path? id = some q ∧ q.same p = true
  /-- A path that is entered for the first time is given the next number, under which it is
  found, in this spelling, from then on. -/
  first : ∀ front p back, steps = front ++ .insert p :: back →
    (∀ q, .insert q ∈ front → q.same p = false) →
    ((FileRoster.after front).insert p).1 = ⟨(firstSpellings front).length⟩ ∧
      r.path? ((FileRoster.after front).insert p).1 = some p
  /-- The number that entering a path gives is the one that all its spellings have from then on,
  whether they are asked for or entered again. -/
  kept : ∀ front p back, steps = front ++ .insert p :: back → ∀ q, p.same q = true →
    r.idOf? q = some ((FileRoster.after front).insert p).1 ∧
      r.insert q = (((FileRoster.after front).insert p).1, r)
  /-- Only paths that were entered have a number. -/
  unknown : ∀ q, r.idOf? q = none ↔ ∀ p, .insert p ∈ steps → p.same q = false
  /-- Different paths have different numbers. -/
  distinct : ∀ p q id, r.idOf? p = some id → (r.idOf? q = some id ↔ p.same q = true)
  /-- Under each number is the text that was set last. -/
  texts : ∀ id, r.text? id = lastText steps id
  /-- Setting a text changes neither numbers nor paths nor other texts, whether the number is
  given to a file or not. -/
  setText : ∀ id text, (r.setText id text).ids = r.ids ∧
    (∀ p, (r.setText id text).idOf? p = r.idOf? p) ∧
    (∀ p, ((r.setText id text).insert p).1 = (r.insert p).1) ∧
    (∀ other, (r.setText id text).path? other = r.path? other) ∧
    ∀ other, (r.setText id text).text? other = if other = id then some text else r.text? other
  /-- A new file has the text that was set under its number before. -/
  early : ∀ p, r.idOf? p = none → (r.insert p).1 = ⟨r.size⟩ ∧
    (r.insert p).2.text? (r.insert p).1 = lastText steps ⟨r.size⟩

namespace FileRoster

theorem after_split (front : List RosterStep) (p : Path) (back : List RosterStep) :
    after (front ++ .insert p :: back) =
      back.foldl RosterStep.applyTo ((after front).insert p).2 :=
  after_append front (.insert p :: back)

/-- A path that is entered for the first time is given the next number for good. -/
theorem path?_after_of_new {front : List RosterStep} {p : Path}
    (hnew : ∀ q, .insert q ∈ front → q.same p = false) (back : List RosterStep) :
    ((after front).insert p).1 = ⟨(firstSpellings front).length⟩ ∧
      (after (front ++ .insert p :: back)).path? ((after front).insert p).1 = some p := by
  have hinsert := insert_of_new (idOf?_after_eq_none_iff.2 hnew)
  have hpath : ((after front).insert p).2.path? ((after front).insert p).1 = some p := by
    rw [hinsert, path?_eq, paths_push, ← length_paths]
    exact List.getElem?_concat_length
  rw [after_split]
  constructor
  · rw [hinsert, size_after]
  · exact foldl_applyTo (P := (·.path? _ = some p)) (fun _ step h => path?_applyTo h step) hpath
      back

/-- The number that is given to a path is that of its spellings for good. -/
theorem idOf?_after_of_insert (front : List RosterStep) {p q : Path} (hsame : p.same q = true)
    (back : List RosterStep) :
    (after (front ++ .insert p :: back)).idOf? q = some ((after front).insert p).1 := by
  have hid : ((after front).insert p).2.idOf? q = some ((after front).insert p).1 := by
    rw [idOf?_insert, if_pos hsame]
  rw [after_split]
  exact foldl_applyTo (P := (·.idOf? q = _)) (fun _ step h => idOf?_applyTo h step) hid back

end FileRoster

/-- Whatever its history, a roster holds what the history leaves. -/
theorem roster_tracksFiles (steps : List RosterStep) :
    TracksFiles steps (FileRoster.after steps) := by
  constructor
  case ids => rw [FileRoster.ids_eq, FileRoster.size_after]
  case paths =>
    rw [← FileRoster.paths_after, ← FileRoster.map_path?_range, FileRoster.ids_eq, List.map_map]
    rfl
  case placed => exact fun p id => FileRoster.exists_path?_of_idOf?
  case first =>
    rintro front p back rfl hnew
    exact FileRoster.path?_after_of_new hnew back
  case kept =>
    rintro front p back rfl q hsame
    have hid := FileRoster.idOf?_after_of_insert front hsame back
    exact ⟨hid, FileRoster.insert_of_idOf? hid⟩
  case unknown => exact fun q => FileRoster.idOf?_after_eq_none_iff
  case distinct =>
    intro p q id hp
    constructor
    · exact FileRoster.same_of_idOf? hp
    · intro hsame
      rw [← FileRoster.idOf?_congr hsame, hp]
  case texts => exact FileRoster.text?_after steps
  case setText =>
    intro id text
    refine ⟨rfl, fun p => rfl, fun p => ?_, fun other => rfl, FileRoster.text?_setText _ id text⟩
    rw [FileRoster.fst_insert, FileRoster.fst_insert]
    rfl
  case early =>
    intro p hp
    rw [FileRoster.insert_of_new hp]
    exact ⟨rfl, FileRoster.text?_after steps _⟩

end SymbolAtlas
