import SymbolAtlas.FileTree.Basic

/-!
# Canonical paths

Every place of a file tree has one canonical path, the absolute path through the
names that lead to it.  A path that leads to a place, however it is spelled, has
the canonical path of that place, and following a canonical path leads back to
where it came from.

## Main Statements

* `FileTree.locate_ofNames`: the canonical path of a place leads to it.
* `FileTree.isSome_at?_of_locate`: a path that leads somewhere leads to an entry.
* `FileTree.canonical_canonical`: a canonical path is its own canonical path.
-/

namespace SymbolAtlas

theorem mem_joinPieces {separator c : Char} {pieces : List (List Char)}
    (h : c ∈ joinPieces separator pieces) : c = separator ∨ ∃ piece ∈ pieces, c ∈ piece := by
  induction pieces with
  | nil => simp [joinPieces] at h
  | cons piece pieces ih =>
    cases pieces with
    | nil => exact .inr ⟨piece, by simp, h⟩
    | cons next rest =>
      rw [joinPieces_cons (by simp)] at h
      simp only [List.mem_append, List.mem_cons] at h
      rcases h with h | h | h
      · exact .inr ⟨piece, by simp, h⟩
      · exact .inl h
      · rcases ih h with h | ⟨q, hq, hc⟩
        · exact .inl h
        · exact .inr ⟨q, List.mem_cons_of_mem piece hq, hc⟩

/-- A child that is found under its name is also found by the text of the name. -/
theorem find?_text_of_lookup {name : EntryName} {child : Entry}
    {children : List (EntryName × Entry)} (h : children.lookup name = some child) :
    children.find? (·.1.text = name.text) = some (name, child) := by
  induction children with
  | nil => simp at h
  | cons other rest ih =>
    obtain ⟨otherName, entry⟩ := other
    by_cases hname : name = otherName
    · subst hname
      simp only [List.lookup_cons, beq_self_eq_true] at h
      simp [Option.some.inj h]
    · have htext : otherName.text ≠ name.text := fun heq => hname (by
        cases name; cases otherName; simp_all)
      rw [List.lookup_cons, beq_false_of_ne hname] at h
      simp [htext, ih h]

/-- A child that is found by the text of a name is the one found under its name. -/
theorem lookup_of_find?_text {text : String} {child : EntryName × Entry}
    {children : List (EntryName × Entry)}
    (h : children.find? (·.1.text = text) = some child) :
    children.lookup child.1 = some child.2 := by
  induction children with
  | nil => simp at h
  | cons other rest ih =>
    have htext : child.1.text = text := by simpa using List.find?_some h
    by_cases hother : other.1.text = text
    · simp only [List.find?_cons, hother, decide_true, Option.some.injEq] at h
      subst h
      rw [List.lookup_cons, beq_self_eq_true]
    · rw [List.find?_cons_of_neg (by simpa using hother)] at h
      have hne : child.1 ≠ other.1 := fun heq => hother (heq ▸ htext)
      rw [List.lookup_cons, beq_false_of_ne hne]
      exact ih h

namespace Entry

theorem at?_nil (entry : Entry) : entry.at? [] = some entry := by
  cases entry <;> rfl

theorem at?_append (entry : Entry) (names more : List EntryName) :
    entry.at? (names ++ more) = (entry.at? names).bind (·.at? more) := by
  induction names generalizing entry with
  | nil => simp [at?_nil]
  | cons name names ih =>
    cases entry with
    | file contents => simp [at?]
    | folder children =>
      simp only [List.cons_append, at?]
      cases children.lookup name with
      | none => rfl
      | some child => exact ih child

end Entry

namespace FileTree

theorem isSome_at?_dropLast {tree : FileTree} {names : List EntryName}
    (h : (tree.at? names).isSome) : (tree.at? names.dropLast).isSome := by
  by_cases hnil : names = []
  · subst hnil; exact h
  · rw [at?, ← List.dropLast_concat_getLast hnil, Entry.at?_append] at h
    rw [at?]
    cases hdrop : tree.top.at? names.dropLast with
    | none => simp [hdrop] at h
    | some entry => rfl

/-- Names that lead to an entry can be followed as segments. -/
theorem follow_text {tree : FileTree} {names more : List EntryName}
    (h : (tree.at? (names ++ more)).isSome) :
    tree.follow names (more.map (·.text)) = .ok (names ++ more) := by
  induction more generalizing names with
  | nil => simp [follow]
  | cons name more ih =>
    have hrest : (tree.at? ((names ++ [name]) ++ more)).isSome := by simpa using h
    have hat := h
    rw [at?, Entry.at?_append] at hat
    obtain ⟨h₁, h₂, h₃, -⟩ := name.isEntryName
    rw [List.map_cons, follow]
    cases hentry : tree.at? names with
    | none => rw [at?] at hentry; simp [hentry] at hat
    | some entry =>
      cases entry with
      | file contents => rw [at?] at hentry; simp [hentry, Entry.at?] at hat
      | folder children =>
        rw [at?] at hentry
        cases hchild : children.lookup name with
        | none => simp [hentry, Entry.at?, hchild] at hat
        | some child =>
          simp [h₁, h₂, h₃, find?_text_of_lookup hchild, ih hrest]

/-- The absolute path through the names of a place leads to it. -/
theorem locate_ofNames {tree : FileTree} {names : List EntryName}
    (h : (tree.at? names).isSome) : tree.locate (.ofNames names) = .ok names := by
  have hlist : (Path.ofNames names).spelling.toList =
      '/' :: joinPieces '/' ((names.map (·.text)).map String.toList) := by
    simp [Path.ofNames, joinNames]
  have hspelling : (Path.ofNames names).spelling ≠ "" := by
    intro hempty; rw [hempty] at hlist; simp at hlist
  have habs : (Path.ofNames names).isAbsolute = true := by simp [Path.isAbsolute, hlist]
  have hnull : (Path.ofNames names).spelling.toList.contains '\x00' = false := by
    rw [hlist, ← Bool.not_eq_true, List.contains_iff_mem]
    intro hmem
    simp only [List.mem_cons] at hmem
    rcases hmem with hmem | hmem
    · exact absurd hmem (by decide)
    · rcases mem_joinPieces hmem with hslash | ⟨piece, hpiece, hc⟩
      · exact absurd hslash (by decide)
      · simp only [List.map_map, List.mem_map] at hpiece
        obtain ⟨name, -, rfl⟩ := hpiece
        exact name.isEntryName.2.2.2.2 hc
  have htop : tree.at? [] = some (.folder tree.children) := by simp [at?, top, Entry.at?]
  simp only [locate, hspelling, hnull, habs, if_true, if_false, Bool.false_eq_true]
  by_cases hnil : names = []
  · subst hnil
    have hsegments : (Path.ofNames []).segments = ["", ""] := by decide +kernel
    simp [hsegments, follow, htop]
  · rw [Path.segments_ofNames hnil, follow, htop]
    have hfollow : tree.follow [] (names.map (·.text)) = .ok ([] ++ names) := follow_text h
    simpa using hfollow

theorem isSome_at?_of_follow {tree : FileTree} {segments : List String}
    {names reached : List EntryName} (h : tree.follow names segments = .ok reached)
    (hstart : segments ≠ [] ∨ (tree.at? names).isSome) : (tree.at? reached).isSome := by
  induction segments generalizing names with
  | nil =>
    simp only [follow, Except.ok.injEq] at h
    subst h
    simpa using hstart
  | cons segment rest ih =>
    rw [follow] at h
    split at h
    · next children hat =>
      have hsome : (tree.at? names).isSome := by simp [hat]
      split at h
      · exact ih h (.inr hsome)
      · split at h
        · exact ih h (.inr (isSome_at?_dropLast hsome))
        · split at h
          · next child hchild =>
            refine ih h (.inr ?_)
            rw [at?] at hat
            simp [at?, Entry.at?_append, hat, Entry.at?, lookup_of_find?_text hchild]
          · simp at h
    · simp at h
    · simp at h

/-- A path that leads somewhere leads to an entry of the tree. -/
theorem isSome_at?_of_locate {tree : FileTree} {p : Path} {names : List EntryName}
    (h : tree.locate p = .ok names) : (tree.at? names).isSome := by
  unfold locate at h
  split at h
  · simp at h
  · split at h
    · simp at h
    · refine isSome_at?_of_follow h (.inl ?_)
      simpa [Path.segments, splitNames] using cutAt_ne_nil '/' p.spelling.toList

/-- A canonical path is its own canonical path. -/
theorem canonical_canonical (tree : FileTree) (p : Path) :
    tree.canonical (tree.canonical p) = tree.canonical p := by
  cases h : tree.locate p with
  | error e => simp [canonical, h]
  | ok names => simp [canonical, h, locate_ofNames (isSome_at?_of_locate h)]

end FileTree

end SymbolAtlas
