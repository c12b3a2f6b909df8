import SymbolAtlas.FileTree.Canonical
import SymbolAtlas.Package.Lookup
import SymbolAtlas.Proofs.Results

/-!
# Where extended paths lead

A path that is extended leads where the extension leads from the place of the path.  The empty
path leads nowhere by itself, but what extends it is looked up from the working folder.

## Main Definitions

* `FileTree.baseOf`: the place from which the extensions of a path are looked up.

## Main Statements

* `FileTree.follow_append`: segments are followed one after the other.
* `FileTree.locate_join`: where an extended path leads.
* `FileTree.follow_steps`: steps down lengthen the names that lead to a place.
* `Path.cutExtension?_eq_some_iff`: a name with an extension, taken apart.
-/

namespace SymbolAtlas

namespace Path

/-- Whether a text can be a segment that leads down: it is not empty, not `.` or `..`, and has
no slash in it. -/
structure IsStep (segment : String) : Prop where
  ne_empty : segment ≠ ""
  ne_here : segment ≠ "."
  ne_up : segment ≠ ".."
  noSlash : '/' ∉ segment.toList

theorem IsStep.splitNames_eq {segment : String} (h : IsStep segment) :
    splitNames '/' segment = [segment] := by
  rw [splitNames, cutAt_eq_singleton h.noSlash, List.map_singleton, String.ofList_toList]

theorem IsStep.head?_ne {segment : String} (h : IsStep segment) :
    segment.toList.head? ≠ some '/' :=
  fun hhead => h.noSlash (List.mem_of_head? hhead)

/-- A text that begins with anything but a dot can be a segment that leads down. -/
theorem isStep_of_head? {segment : String} {c : Char} (hhead : segment.toList.head? = some c)
    (hc : c ≠ '.') (hslash : '/' ∉ segment.toList) : IsStep segment := by
  refine ⟨?_, ?_, ?_, hslash⟩
  · rintro rfl
    cases hhead
  · rintro rfl
    exact hc (Option.some.inj hhead).symm
  · rintro rfl
    exact hc (Option.some.inj hhead).symm

/-- A segment that leads down still does so with an extension. -/
theorem IsStep.append_extension {name extension : String} (h : IsStep name)
    (hslash : '/' ∉ extension.toList) : IsStep (name ++ "." ++ extension) := by
  have htext : (name ++ "." ++ extension).toList = name.toList ++ '.' :: extension.toList := by
    simp
  have hne : name.toList ≠ [] := fun hnil => h.ne_empty (String.toList_eq_nil_iff.1 hnil)
  obtain ⟨c, chars, hchars⟩ := List.exists_cons_of_ne_nil hne
  refine ⟨?_, ?_, ?_, ?_⟩
  · intro hempty
    simp [hempty] at htext
  · intro hhere
    simp [hhere, hchars] at htext
  · intro hup
    rw [hup, hchars] at htext
    obtain ⟨rfl, hrest⟩ := List.cons.inj htext
    cases chars with
    | nil => exact h.ne_here (String.toList_inj.1 hchars)
    | cons d chars => simp at hrest
  · rw [htext, List.mem_append, List.mem_cons, not_or, not_or]
    exact ⟨h.noSlash, by decide, hslash⟩

theorem isStep_entryName (name : EntryName) : IsStep name.text :=
  ⟨name.isEntryName.1, name.isEntryName.2.1, name.isEntryName.2.2.1, name.isEntryName.2.2.2.1⟩

/-- The spelling of an extended path. -/
theorem toList_join {p : Path} (hp : p.spelling ≠ "") {more : String}
    (hmore : more.toList.head? ≠ some '/') :
    (p.join more).spelling.toList = p.spelling.toList ++ '/' :: more.toList ∨
      ∃ front, p.spelling.toList = front ++ ['/'] ∧
        (p.join more).spelling.toList = front ++ '/' :: more.toList := by
  rw [join, if_neg (by simpa using hmore)]
  split
  · next h =>
    rw [Bool.or_eq_true, decide_eq_true_eq, or_iff_right hp, beq_iff_eq] at h
    obtain ⟨front, hfront⟩ := List.getLast?_eq_some_iff.1 h
    exact .inr ⟨front, hfront, by simp [hfront]⟩
  · exact .inl (by simp)

/-- The segments of an extended path: those of the extension come behind, or take the place of
an empty one. -/
theorem segments_join {p : Path} (hp : p.spelling ≠ "") {more : String}
    (hmore : more.toList.head? ≠ some '/') :
    (p.join more).segments = p.segments ++ splitNames '/' more ∨
      ∃ front, p.segments = front ++ [""] ∧
        (p.join more).segments = front ++ splitNames '/' more := by
  rcases toList_join hp hmore with hjoin | ⟨front, hfront, hjoin⟩
  · left
    rw [segments, splitNames, hjoin, cutAt_append_separator, List.map_append]
    rfl
  · right
    refine ⟨(cutAt '/' front).map String.ofList, ?_, ?_⟩
    · rw [segments, splitNames, hfront, cutAt_append_separator, List.map_append]
      rfl
    · rw [segments, splitNames, hjoin, cutAt_append_separator, List.map_append]
      rfl

theorem isAbsolute_join {p : Path} (hp : p.spelling ≠ "") {more : String}
    (hmore : more.toList.head? ≠ some '/') : (p.join more).isAbsolute = p.isAbsolute := by
  have hne : p.spelling.toList ≠ [] := fun hnil => hp (String.toList_eq_nil_iff.1 hnil)
  obtain ⟨c, chars, hchars⟩ := List.exists_cons_of_ne_nil hne
  rw [isAbsolute, isAbsolute]
  rcases toList_join hp hmore with hjoin | ⟨front, hfront, hjoin⟩
  · rw [hjoin, hchars]
    rfl
  · rw [hjoin, hfront]
    cases front <;> rfl

theorem mem_join {p : Path} {more : String} (hmore : more.toList.head? ≠ some '/') {c : Char}
    (hc : c ≠ '/') :
    c ∈ (p.join more).spelling.toList ↔ c ∈ p.spelling.toList ∨ c ∈ more.toList := by
  by_cases hp : p.spelling = ""
  · rw [join, if_neg (by simpa using hmore), hp]
    simp
  · rcases toList_join hp hmore with hjoin | ⟨front, hfront, hjoin⟩
    · simp [hjoin, hc]
    · simp [hjoin, hfront, hc]

theorem cutExtension?_append {stem extension : String} (hstem : stem ≠ "")
    (hextension : '.' ∉ extension.toList) :
    cutExtension? (stem ++ "." ++ extension) = some (stem, extension) := by
  have hreverse : (stem ++ "." ++ extension).toList.reverse =
      extension.toList.reverse ++ '.' :: stem.toList.reverse := by simp
  have hpass : ∀ c ∈ extension.toList.reverse, decide (c ≠ '.') = true := by
    intro c hc
    rw [decide_eq_true_eq]
    rintro rfl
    exact hextension (List.mem_reverse.1 hc)
  have hne : stem.toList.reverse ≠ [] := by simpa using hstem
  obtain ⟨c, chars, hchars⟩ := List.exists_cons_of_ne_nil hne
  unfold cutExtension?
  dsimp only
  rw [hreverse, List.dropWhile_append_of_pos hpass, List.takeWhile_append_of_pos hpass, hchars]
  simp [← hchars]

theorem eq_append_of_cutExtension? {name stem extension : String}
    (h : cutExtension? name = some (stem, extension)) :
    name = stem ++ "." ++ extension ∧ stem ≠ "" ∧ '.' ∉ extension.toList := by
  unfold cutExtension? at h
  dsimp only at h
  split at h
  · cases h
  · cases h
  · next first rest hrest hdrop =>
    obtain ⟨rfl, rfl⟩ := Prod.mk.inj (Option.some.inj h)
    have hfirst : first = '.' := by
      have hnot := List.head?_dropWhile_not (· ≠ '.') name.toList.reverse
      rw [hdrop] at hnot
      simpa using hnot
    have hname : name.toList.reverse =
        name.toList.reverse.takeWhile (· ≠ '.') ++ '.' :: rest := by
      rw [hfirst] at hdrop
      rw [← hdrop, List.takeWhile_append_dropWhile]
    refine ⟨?_, fun hempty => hrest (by simpa using hempty), fun hdot => ?_⟩
    · rw [← String.toList_inj, ← List.reverse_inj]
      refine hname.trans ?_
      simp
    · have hmem : '.' ∈ name.toList.reverse.takeWhile (· ≠ '.') := by simpa using hdot
      simpa using List.all_eq_true.1 List.all_takeWhile '.' hmem

/-- A name is cut at its last dot, unless that is its first character. -/
theorem cutExtension?_eq_some_iff {name stem extension : String} :
    cutExtension? name = some (stem, extension) ↔
      name = stem ++ "." ++ extension ∧ stem ≠ "" ∧ '.' ∉ extension.toList := by
  refine ⟨eq_append_of_cutExtension?, ?_⟩
  rintro ⟨rfl, hstem, hextension⟩
  exact cutExtension?_append hstem hextension

theorem join_of_empty {p : Path} (hp : p.spelling = "") {more : String}
    (hmore : more.toList.head? ≠ some '/') : p.join more = ⟨more⟩ := by
  rw [join, if_neg (by simpa using hmore), hp]
  simp

theorem join_ne_empty (p : Path) {more : String} (hmore : more ≠ "") :
    (p.join more).spelling ≠ "" := by
  unfold join
  split
  · exact hmore
  · split <;> simp [hmore]

end Path

theorem joinSegments_concat (base : Path) (segments : List String) (segment : String) :
    joinSegments base (segments ++ [segment]) = (joinSegments base segments).join segment := by
  rw [joinSegments, List.foldl_append]
  rfl

namespace FileTree

variable {tree : FileTree}

/-- Segments are followed one after the other. -/
theorem follow_append (tree : FileTree) (names : List EntryName) (front back : List String) :
    tree.follow names (front ++ back) = (tree.follow names front).bind (tree.follow · back) := by
  induction front generalizing names with
  | nil => rfl
  | cons segment front ih =>
    rw [List.cons_append, follow, follow]
    split
    · split
      · exact ih names
      · split
        · exact ih names.dropLast
        · split
          · exact ih _
          · rfl
    · rfl
    · rfl

/-- An empty segment makes no difference in front of others. -/
theorem follow_empty_bind (names : List EntryName) {segments : List String}
    (h : segments ≠ []) :
    (tree.follow names [""]).bind (tree.follow · segments) = tree.follow names segments := by
  obtain ⟨segment, rest, rfl⟩ := List.exists_cons_of_ne_nil h
  cases hat : tree.at? names with
  | none => simp only [follow, hat, Except.bind]
  | some entry =>
    cases entry with
    | file contents => simp only [follow, hat, Except.bind]
    | folder children => simp [follow, hat, Except.bind]

/-- A step down leads to a child. -/
theorem follow_step_iff {segment : String} (h : Path.IsStep segment)
    {names reached : List EntryName} :
    tree.follow names [segment] = .ok reached ↔ ∃ children child,
      tree.at? names = some (.folder children) ∧
        children.find? (·.1.text = segment) = some child ∧ reached = names ++ [child.1] := by
  have hidle : (decide (segment = "") || decide (segment = ".")) = false := by
    simp [h.ne_empty, h.ne_here]
  simp only [follow, hidle, h.ne_up, Bool.false_eq_true, if_false]
  constructor
  · intro hfollow
    split at hfollow
    · next children hat =>
      split at hfollow
      · next child hchild =>
        exact ⟨children, child, hat, hchild, (Except.ok.inj hfollow).symm⟩
      · cases hfollow
    all_goals cases hfollow
  · rintro ⟨children, child, hat, hchild, rfl⟩
    simp only [hat, hchild]

/-- Steps down lengthen the names that lead to a place by as many names. -/
theorem follow_steps {segments : List String} (h : ∀ segment ∈ segments, Path.IsStep segment)
    {names reached : List EntryName} (hfollow : tree.follow names segments = .ok reached) :
    ∃ more, reached = names ++ more ∧ more.map (·.text) = segments := by
  induction segments generalizing names with
  | nil => exact ⟨[], by simpa [follow] using hfollow.symm, rfl⟩
  | cons segment segments ih =>
    obtain ⟨hsegment, hsegments⟩ := List.forall_mem_cons.1 h
    rw [← List.singleton_append, follow_append] at hfollow
    obtain ⟨next, hnext, hrest⟩ := bind_eq_ok_iff.1 hfollow
    obtain ⟨children, child, -, hchild, rfl⟩ := (follow_step_iff hsegment).1 hnext
    obtain ⟨more, rfl, hmore⟩ := ih hsegments hrest
    have htext : child.1.text = segment := by simpa using List.find?_some hchild
    exact ⟨child.1 :: more, by simp, by rw [List.map_cons, htext, hmore]⟩

/-- The place from which the extensions of a path are looked up: that of the path itself, or the
working folder for the empty path. -/
def baseOf (tree : FileTree) (p : Path) : Except ReadError (List EntryName) :=
  if p.spelling = "" then .ok tree.workingFolder else tree.locate p

theorem baseOf_of_locate {p : Path} {names : List EntryName} (h : tree.locate p = .ok names) :
    tree.baseOf p = .ok names := by
  rw [baseOf, if_neg, h]
  intro hempty
  rw [locate, if_pos hempty] at h
  cases h

theorem baseOf_join (p : Path) {more : String} (hmore : more ≠ "") :
    tree.baseOf (p.join more) = tree.locate (p.join more) := by
  rw [baseOf, if_neg (p.join_ne_empty hmore)]

/-- Where an extended path leads. -/
theorem locate_join (p : Path) {more : String} (hhead : more.toList.head? ≠ some '/')
    (hmore : more ≠ "") (hnull : '\x00' ∉ more.toList) :
    tree.locate (p.join more) = (tree.baseOf p).bind (tree.follow · (splitNames '/' more)) := by
  have hsplit : splitNames '/' more ≠ [] := by
    simpa [splitNames] using cutAt_ne_nil '/' more.toList
  by_cases hp : p.spelling = ""
  · have habs : (Path.mk more).isAbsolute = false := by
      rw [Path.isAbsolute]
      simpa using hhead
    rw [Path.join_of_empty hp hhead, locate, baseOf, if_pos hp, if_neg hmore,
      if_neg (by simpa using hnull), habs]
    rfl
  · rw [baseOf, if_neg hp, locate, locate, if_neg hp, if_neg (p.join_ne_empty hmore),
      Path.isAbsolute_join hp hhead]
    by_cases hclean : '\x00' ∈ p.spelling.toList
    · have hdirty : '\x00' ∈ (p.join more).spelling.toList :=
        (Path.mem_join hhead (by decide)).2 (.inl hclean)
      simp only [List.contains_iff_mem, hclean, hdirty, if_true]
      rfl
    · have hclean' : '\x00' ∉ (p.join more).spelling.toList := by
        rw [Path.mem_join hhead (by decide), not_or]
        exact ⟨hclean, hnull⟩
      simp only [List.contains_iff_mem, hclean, hclean', if_false]
      rcases Path.segments_join hp hhead with h | ⟨front, hfront, h⟩
      · rw [h, follow_append]
      · rw [h, hfront, follow_append, follow_append]
        cases tree.follow (if p.isAbsolute = true then [] else tree.workingFolder) front with
        | error e => rfl
        | ok names => exact (follow_empty_bind names hsplit).symm

/-- Nothing is found by a path with a null character in it. -/
theorem locate_join_of_null (p : Path) {more : String} (hhead : more.toList.head? ≠ some '/')
    (hnull : '\x00' ∈ more.toList) : tree.locate (p.join more) = .error .nullInPath := by
  have hmem : '\x00' ∈ (p.join more).spelling.toList :=
    (Path.mem_join hhead (by decide)).2 (.inr hnull)
  have hmore : more ≠ "" := by
    rintro rfl
    cases hnull
  rw [locate, if_neg (p.join_ne_empty hmore), if_pos (by simpa using hmem)]

/-- A folder, extended by the name of a child, leads to the child. -/
theorem locate_join_child {p : Path} {names : List EntryName} (hp : tree.locate p = .ok names)
    {children : List (EntryName × Entry)} (hat : tree.at? names = some (.folder children))
    {name : EntryName} {child : Entry} (hchild : children.lookup name = some child) :
    tree.locate (p.join name.text) = .ok (names ++ [name]) ∧
      tree.at? (names ++ [name]) = some child := by
  have hstep := Path.isStep_entryName name
  constructor
  · rw [locate_join p hstep.head?_ne hstep.ne_empty name.isEntryName.2.2.2.2,
      baseOf_of_locate hp, hstep.splitNames_eq]
    exact (follow_step_iff hstep).2
      ⟨children, (name, child), hat, find?_text_of_lookup hchild, rfl⟩
  · rw [at?] at hat
    simp [at?, Entry.at?_append, hat, Entry.at?, hchild]

/-- What is found by a path that was extended by one step is one name further. -/
theorem exists_name_of_locate_join {p : Path} {segment : String} (h : Path.IsStep segment)
    {names : List EntryName} (hlocate : tree.locate (p.join segment) = .ok names) :
    ∃ front name, tree.baseOf p = .ok front ∧ names = front ++ [name] ∧ name.text = segment := by
  by_cases hnull : '\x00' ∈ segment.toList
  · rw [locate_join_of_null p h.head?_ne hnull] at hlocate
    cases hlocate
  · rw [locate_join p h.head?_ne h.ne_empty hnull, h.splitNames_eq] at hlocate
    obtain ⟨front, hfront, hfollow⟩ := bind_eq_ok_iff.1 hlocate
    obtain ⟨children, child, -, hchild, rfl⟩ := (follow_step_iff h).1 hfollow
    exact ⟨front, child.1, hfront, rfl, by simpa using List.find?_some hchild⟩

end FileTree

end SymbolAtlas
