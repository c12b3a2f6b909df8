import SymbolAtlas.Proofs.IdentifierRoles

/-!
# Package paths as texts

A package path is read in two ways: from a text that is typed in a request, and from the tokens
of an import statement, with blanks and comments between them.  Only one text is read as a
given path, the one that writes it out, and the paths that can be read are those without dots
in their segments whose first segment is not empty.  The segments of an import statement are
identifiers, so both ways of reading agree on what is written out.

## Main Definitions

* `PackagePath.WellFormed`: the package paths that have a text.

## Main Statements

* `PackagePath.display_parse`, `PackagePath.parse_display`: writing and reading.
* `PackagePath.wellFormed_parse`: what is read is well-formed.
* `wellFormed_of_mem_imports`: imported packages are well-formed.
* `packages_round_trip`: package paths as texts.
-/

namespace SymbolAtlas

namespace PackagePath

/-- A package path that has a text: no segment has a dot in it, and the first one, if there is
one, is not empty. -/
structure WellFormed (p : PackagePath) : Prop where
  undotted : ∀ segment ∈ p.segments, '.' ∉ segment.toList
  first : p.segments.head? ≠ some ""

/-- What is read: the leading dots, and the pieces of what stands behind them. -/
theorem parse_dots_append (dots : Nat) {rest : List Char} (h : rest.head? ≠ some '.') :
    parse (String.ofList (List.replicate dots '.' ++ rest)) =
      ⟨dots, if rest.isEmpty then [] else (cutAt '.' rest).map String.ofList⟩ := by
  have hdots : ∀ c ∈ List.replicate dots '.', (c == '.') = true :=
    fun c hc => beq_iff_eq.2 (List.eq_of_mem_replicate hc)
  have hrest : rest.takeWhile (· == '.') = [] ∧ rest.dropWhile (· == '.') = rest := by
    cases rest with
    | nil => exact ⟨rfl, rfl⟩
    | cons c rest =>
      have hc : c ≠ '.' := fun heq => h (congrArg some heq)
      simp [hc]
  unfold parse
  rw [String.toList_ofList]
  dsimp only
  rw [List.takeWhile_append_of_pos hdots, List.dropWhile_append_of_pos hdots, hrest.1, hrest.2,
    List.append_nil, List.length_replicate]

/-- Every text has some leading dots. -/
theorem exists_leadingDots (text : String) :
    ∃ dots rest, text = String.ofList (List.replicate dots '.' ++ rest) ∧
      rest.head? ≠ some '.' := by
  have hdots : text.toList.takeWhile (· == '.') =
      List.replicate (text.toList.takeWhile (· == '.')).length '.' := by
    refine List.eq_replicate_iff.2 ⟨rfl, fun c hc => ?_⟩
    have heq : (c == '.') = true := List.mem_takeWhile_imp (p := (· == '.')) hc
    exact beq_iff_eq.1 heq
  refine ⟨(text.toList.takeWhile (· == '.')).length, text.toList.dropWhile (· == '.'), ?_, ?_⟩
  · rw [← hdots, List.takeWhile_append_dropWhile, String.ofList_toList]
  · intro hhead
    have hnot := List.head?_dropWhile_not (· == '.') text.toList
    rw [hhead] at hnot
    cases hnot

/-- Writing out what was read from a text gives the text back. -/
theorem display_parse (text : String) : (parse text).display = text := by
  obtain ⟨dots, rest, rfl, hrest⟩ := exists_leadingDots text
  rw [parse_dots_append dots hrest, display, joinNames, ← String.ofList_append]
  cases rest with
  | nil => rfl
  | cons c rest =>
    have hpieces : ((cutAt '.' (c :: rest)).map String.ofList).map String.toList =
        cutAt '.' (c :: rest) := by
      simp [Function.comp_def]
    show String.ofList (_ ++ joinPieces '.' (((cutAt '.' (c :: rest)).map _).map _)) = _
    rw [hpieces, joinPieces_cutAt]

/-- What is read from a text is well-formed. -/
theorem wellFormed_parse (text : String) : (parse text).WellFormed := by
  obtain ⟨dots, rest, rfl, hrest⟩ := exists_leadingDots text
  rw [parse_dots_append dots hrest]
  cases rest with
  | nil => exact ⟨nofun, nofun⟩
  | cons c rest =>
    constructor
    · intro segment hsegment
      obtain ⟨piece, hpiece, rfl⟩ := List.mem_map.1 hsegment
      rw [String.toList_ofList]
      exact notMem_of_mem_cutAt hpiece
    · have hc : c ≠ '.' := fun heq => hrest (congrArg some heq)
      obtain ⟨piece, pieces, hcut⟩ := exists_cutAt_cons hc rest
      simp only [List.isEmpty_cons, Bool.false_eq_true, if_false, hcut]
      simp

/-- Written out, the segments of a well-formed path do not begin with a dot. -/
theorem WellFormed.exists_cons {p : PackagePath} (h : p.WellFormed) (hne : p.segments ≠ []) :
    ∃ c rest, joinPieces '.' (p.segments.map String.toList) = c :: rest ∧ c ≠ '.' := by
  obtain ⟨dots, segments⟩ := p
  cases segments with
  | nil => exact absurd rfl hne
  | cons first others =>
    have hfirst : first.toList ≠ [] := by
      intro hnil
      exact h.first (by rw [List.head?_cons, String.toList_eq_nil_iff.1 hnil])
    obtain ⟨c, rest, hchars⟩ := List.exists_cons_of_ne_nil hfirst
    have hc : c ≠ '.' := by
      rintro rfl
      exact h.undotted first List.mem_cons_self (by rw [hchars]; exact List.mem_cons_self)
    rw [List.map_cons, hchars]
    cases others with
    | nil => exact ⟨c, rest, rfl, hc⟩
    | cons next others => exact ⟨c, _, rfl, hc⟩

/-- Reading what a well-formed path is written out as gives the path back. -/
theorem parse_display {p : PackagePath} (h : p.WellFormed) : parse p.display = p := by
  rw [display, joinNames, ← String.ofList_append]
  by_cases hne : p.segments = []
  · rw [hne, parse_dots_append _ (by simp [joinPieces])]
    show (⟨p.dots, []⟩ : PackagePath) = p
    rw [← hne]
  · obtain ⟨c, rest, hjoined, hc⟩ := h.exists_cons hne
    have hcut : cutAt '.' (c :: rest) = p.segments.map String.toList := by
      rw [← hjoined]
      refine cutAt_joinPieces (by simpa using hne) fun piece hpiece => ?_
      obtain ⟨segment, hsegment, rfl⟩ := List.mem_map.1 hpiece
      exact h.undotted segment hsegment
    rw [hjoined, parse_dots_append _ (by simpa using hc), hcut]
    simp

theorem wellFormed_iff {p : PackagePath} : p.WellFormed ↔ ∃ text, parse text = p := by
  constructor
  · exact fun h => ⟨p.display, parse_display h⟩
  · rintro ⟨text, rfl⟩
    exact wellFormed_parse text

/-- A well-formed path is read from the text that writes it out and from no other. -/
theorem WellFormed.parse_eq_iff {p : PackagePath} (h : p.WellFormed) {text : String} :
    parse text = p ↔ text = p.display := by
  constructor
  · rintro rfl
    exact (display_parse text).symm
  · rintro rfl
    exact parse_display h

end PackagePath

/-! ## Imported packages -/

/-- The segments of imported packages are identifiers. -/
theorem isIdentifier_of_mem_segments {text : String} {o : Outline}
    (h : Outline.parse text = .ok o) {s : ImportStatement} (hs : s ∈ o.imports) {segment : String}
    (hsegment : segment ∈ s.package.segments) : IsIdentifier segment.toList := by
  obtain ⟨tokens, phrases, htokens, hphrases, rfl⟩ := parse_eq_ok_iff.1 h
  have hmem : segment ∈ (outlineOf phrases).imports.flatMap (·.package.segments) :=
    List.mem_flatMap.2 ⟨s, hs, hsegment⟩
  rw [← tokensAs_segment_rolesOf] at hmem
  obtain ⟨t, ht, rfl⟩ := List.mem_map.1 hmem
  have hshared := (perm_tokensAs hphrases.fits).mem_iff.1
    (List.mem_append_right _ (List.mem_append_left _ ht))
  rw [hphrases.tokens_eq] at hshared
  obtain ⟨ht, hkind⟩ := List.mem_filter.1 hshared
  exact isIdentifier_of_mem_tokenize htokens ht (of_decide_eq_true hkind)

/-- A package path whose segments are identifiers is well-formed. -/
theorem PackagePath.wellFormed_of_isIdentifier {p : PackagePath}
    (h : ∀ segment ∈ p.segments, IsIdentifier segment.toList) : p.WellFormed where
  undotted segment hsegment hdot := by
    have hword := (h segment hsegment).forall_isWordChar '.' hdot
    revert hword
    decide
  first hempty := (h "" (List.mem_of_head? hempty)).ne_nil rfl

/-- Imported packages are well-formed. -/
theorem wellFormed_of_mem_imports {text : String} {o : Outline}
    (h : Outline.parse text = .ok o) {s : ImportStatement} (hs : s ∈ o.imports) :
    s.package.WellFormed :=
  PackagePath.wellFormed_of_isIdentifier fun _ hsegment =>
    isIdentifier_of_mem_segments h hs hsegment

/-- Every text is read as one package path and written out again, the well-formed paths are
those that are read back from what is written out and those that are read at all, and an
imported package is well-formed, so that it is read from the text that writes it out and from
no other. -/
theorem packages_round_trip :
    (∀ text, (PackagePath.parse text).display = text) ∧
      (∀ p : PackagePath, p.WellFormed → PackagePath.parse p.display = p) ∧
      (∀ p : PackagePath, p.WellFormed ↔ ∃ text, PackagePath.parse text = p) ∧
      ∀ source o, Outline.parse source = .ok o → ∀ s ∈ o.imports, s.package.WellFormed ∧
        ∀ text, PackagePath.parse text = s.package ↔ text = s.package.display := by
  refine ⟨PackagePath.display_parse, fun p => PackagePath.parse_display,
    fun p => PackagePath.wellFormed_iff, fun source o hparse s hs => ?_⟩
  have hpackage := wellFormed_of_mem_imports hparse hs
  exact ⟨hpackage, fun text => hpackage.parse_eq_iff⟩

/-- A package with blanks and comments between its dots and segments. -/
def spacedText : String := "from . /* up */ . lib // two\n . shapes import Shape"

/-- The outline of the text. -/
def spacedOutline : Outline :=
  { imports := [⟨⟨2, ["lib", "shapes"]⟩, ⟨⟨"Shape", ⟨1, 17, 22⟩⟩, none⟩, []⟩]
    declarations := []
    identifiers := [⟨"Shape", ⟨1, 17, 22⟩⟩] }

/-- The package is read from the text without them. -/
theorem packages_round_trip_spaced :
    Outline.parse spacedText = .ok spacedOutline ∧
      ∀ text, PackagePath.parse text = ⟨2, ["lib", "shapes"]⟩ ↔ text = "..lib.shapes" := by
  have hparse : Outline.parse spacedText = .ok spacedOutline :=
    eq_ok_of_toOption (by decide +kernel)
  obtain ⟨-, -, -, himports⟩ := packages_round_trip
  exact ⟨hparse, (himports _ _ hparse _ (List.mem_singleton.2 rfl)).2⟩

end SymbolAtlas
