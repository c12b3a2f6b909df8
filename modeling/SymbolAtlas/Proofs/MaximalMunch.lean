import SymbolAtlas.Proofs.LongestLexeme

/-!
# Reading texts by longest lexemes

A text is read from left to right, each time by the longest lexeme.  Either the lexemes
reach to the end of the text, and then the tokens among them are what the text is read as;
or they reach a quote or a comment that is never closed, and that is where the error is
reported.

## Main Definitions

* `ReadsTo`: reading a text lexeme by lexeme comes to a place.
* `LaidOut`: how tokens lie in a text.
* `MaximalMunch`: what the reading of a text gives.

## Main Statements

* `readsTo_nil_iff`, `tokensFrom_eq_error_iff`: when reading succeeds and when it fails.
* `tokenize_maximalMunch`: tokens are read by longest matches.
-/

namespace SymbolAtlas

/-! ## Places -/

namespace Cursor

/-- Along a text the offset grows by its size in bytes. -/
theorem offset_advanceAll (place : Cursor) (text : List Char) :
    (place.advanceAll text).offset = place.offset + (String.ofList text).utf8ByteSize := by
  induction text generalizing place with
  | nil => rfl
  | cons c text ih =>
    have hadvance : (place.advance c).offset = place.offset + c.utf8Size := by
      unfold advance
      split <;> rfl
    rw [advanceAll_cons, ih, hadvance, String.ofList_cons, String.utf8ByteSize_append,
      String.utf8ByteSize_singleton, Nat.add_assoc]

theorem offset_start_advanceAll (text : List Char) :
    (start.advanceAll text).offset = (String.ofList text).utf8ByteSize := by
  rw [offset_advanceAll]
  exact Nat.zero_add _

end Cursor

theorem joined_cons (s : Stretch) (stretches : List Stretch) :
    joined (s :: stretches) = s.chars ++ joined stretches := rfl

theorem joined_append_cons (front : List Stretch) (s : Stretch) (back : List Stretch) :
    joined (front ++ s :: back) = joined front ++ (s.chars ++ joined back) := by
  rw [joined, List.flatMap_append, List.flatMap_cons]
  rfl

theorem utf8ByteSize_pos {chars : List Char} (h : chars ≠ []) :
    0 < (String.ofList chars).utf8ByteSize := by
  obtain ⟨c, rest, rfl⟩ := List.exists_cons_of_ne_nil h
  rw [String.ofList_cons, String.utf8ByteSize_append, String.utf8ByteSize_singleton]
  exact Nat.add_pos_left c.utf8Size_pos _

/-- Tokens follow each other, each behind the end of those in front of it. -/
theorem pairwise_offset_tokensOf (place : Cursor) (stretches : List Stretch) :
    (tokensOf place stretches).Pairwise fun a b => a.stopOffset ≤ b.startOffset := by
  induction stretches generalizing place with
  | nil => exact .nil
  | cons s stretches ih =>
    refine List.pairwise_append.2 ⟨?_, ih _, ?_⟩
    · unfold Stretch.tokens
      cases s.kind with
      | none => exact .nil
      | some kind => exact List.pairwise_singleton _ _
    · intro a ha b hb
      obtain ⟨kind, -, rfl⟩ := Option.map_eq_some_iff.1 (Option.mem_toList.1 ha)
      obtain ⟨front, s', back, -, heq, -⟩ := exists_stretch_of_mem_tokensOf hb
      rw [heq]
      show place.offset + (String.ofList s.chars).utf8ByteSize ≤ Cursor.offset _
      rw [Cursor.offset_advanceAll, Cursor.offset_advanceAll]
      exact Nat.le_add_right _ _

/-! ## Whole texts -/

/-- Reading a text by longest lexemes comes to a place: the stretches up to there, and what
is left of the text. -/
inductive ReadsTo : List Char → List Stretch → List Char → Prop where
  | here {text : List Char} : ReadsTo text [] text
  | step {text rest left : List Char} {s : Stretch} {stretches : List Stretch}
      (first : Munches text s rest) (others : ReadsTo rest stretches left) :
      ReadsTo text (s :: stretches) left

theorem readsTo_nil_iff {text : List Char} {stretches : List Stretch} :
    ReadsTo text stretches [] ↔ LexedAs text stretches := by
  constructor
  · generalize hleft : [] = left
    intro h
    induction h with
    | here =>
      subst hleft
      exact .nil
    | step first others ih =>
      obtain ⟨c, tail, lexeme, rfl, hfirst, rfl, rfl⟩ := first.exists_firstLexeme
      exact .cons hfirst (ih hleft)
  · intro h
    induction h with
    | nil => exact .here
    | cons first others ih => exact .step (munches_of_firstLexeme first) ih

/-- What is read at any place of the text is the longest lexeme there. -/
theorem ReadsTo.munches {text : List Char} {front back : List Stretch} {s : Stretch}
    (h : ReadsTo text (front ++ s :: back) []) :
    Munches (s.chars ++ joined back) s (joined back) := by
  induction front generalizing text with
  | nil =>
    cases h with
    | step first others =>
      rw [(readsTo_nil_iff.1 others).joined_eq, first.append_eq]
      exact first
  | cons _ front ih =>
    cases h with
    | step first others => exact ih others

/-- Reading fails exactly when it comes to what is never closed, and there. -/
theorem tokensFrom_eq_error_iff {place : Cursor} {text : List Char} {e : SyntaxError} :
    tokensFrom place text = .error e ↔ ∃ stretches left, ReadsTo text stretches left ∧
      Unclosed left ∧ e = .unrecognised (place.advanceAll (joined stretches)).position := by
  constructor
  · intro h
    fun_induction tokensFrom place text with
    | case1 => cases h
    | case2 place c rest hfirst =>
      exact ⟨[], _, .here, unclosed_of_firstLexeme hfirst, (Except.error.inj h).symm⟩
    | case3 place c rest lexeme hfirst _ e' hothers =>
      rename_i ih
      obtain ⟨stretches, left, hreads, hleft, rfl⟩ := ih (hothers.trans h)
      refine ⟨_, left, .step (munches_of_firstLexeme hfirst) hreads, hleft, ?_⟩
      rw [joined_cons, Cursor.advanceAll_append]
    | case4 => cases h
    | case5 => cases h
  · rintro ⟨stretches, left, hreads, hleft, rfl⟩
    induction hreads generalizing place with
    | @here text =>
      cases text with
      | nil => cases hleft
      | cons c rest =>
        rw [tokensFrom, firstLexeme_of_unclosed hleft]
        rfl
    | @step text rest left s stretches first others ih =>
      obtain ⟨c, tail, lexeme, rfl, hfirst, rfl, rfl⟩ := first.exists_firstLexeme
      rw [tokensFrom, hfirst]
      simp only [ih hleft]
      rw [joined_cons, Cursor.advanceAll_append]

/-- How tokens lie in a text.  Their extents in bytes are not empty, lie between characters
and do not overlap; each is the longest match of the rule for its kind; and what stands
between them is a row of skipped pieces. -/
structure LaidOut (text : String) (tokens : List Token) : Prop where
  nonempty : ∀ t ∈ tokens, t.startOffset < t.stopOffset
  longest : ∀ t ∈ tokens, ∃ front back, text.toList = front ++ (t.lexeme.toList ++ back) ∧
    t.startOffset = (String.ofList front).utf8ByteSize ∧
    t.stopOffset = (String.ofList (front ++ t.lexeme.toList)).utf8ByteSize ∧
    Longest (.token t.kind) t.lexeme.toList back
  ordered : tokens.Pairwise fun a b => a.stopOffset ≤ b.startOffset
  skipped : ∃ stretches, text.toList = joined stretches ∧
    tokens = tokensOf Cursor.start stretches ∧ ∀ s ∈ stretches, s.kind = none → Skipped s.chars

/-- What the reading of a text gives: the tokens among the longest lexemes when they reach to
its end, and an error at the opening character when they reach what is never closed. -/
structure MaximalMunch (text : String) (result : Except SyntaxError (List Token)) : Prop where
  ok_iff : ∀ tokens, result = .ok tokens ↔ ∃ stretches, ReadsTo text.toList stretches [] ∧
    tokens = tokensOf Cursor.start stretches
  laidOut : ∀ tokens, result = .ok tokens → LaidOut text tokens
  error_iff : ∀ e, result = .error e ↔ ∃ stretches left, ReadsTo text.toList stretches left ∧
    Unclosed left ∧ e = .unrecognised (Position.behind (joined stretches))

theorem ReadsTo.laidOut {text : String} {stretches : List Stretch}
    (h : ReadsTo text.toList stretches []) : LaidOut text (tokensOf Cursor.start stretches) where
  nonempty t ht := by
    have hne := ne_nil_of_mem_tokenize (tokenize_eq_ok_iff.2 ⟨_, readsTo_nil_iff.1 h, rfl⟩) ht
    have hsize := utf8ByteSize_pos hne
    rw [String.ofList_toList] at hsize
    exact Nat.lt_add_of_pos_right hsize
  longest t ht := by
    obtain ⟨front, s, back, rfl, heq, hkind⟩ := exists_stretch_of_mem_tokensOf ht
    have hlexeme : t.lexeme.toList = s.chars := by rw [heq, String.toList_ofList]
    have hstart : t.startOffset = (String.ofList (joined front)).utf8ByteSize := by
      rw [heq]
      exact Cursor.offset_start_advanceAll _
    refine ⟨joined front, joined back, ?_, hstart, ?_, ?_⟩
    · rw [hlexeme, ← joined_append_cons, (readsTo_nil_iff.1 h).joined_eq]
    · rw [String.ofList_append, String.ofList_toList, String.utf8ByteSize_append, ← hstart]
      rfl
    · rw [hlexeme]
      exact h.munches.longest hkind
  ordered := pairwise_offset_tokensOf _ _
  skipped := by
    refine ⟨stretches, (readsTo_nil_iff.1 h).joined_eq.symm, rfl, fun s hs hkind => ?_⟩
    obtain ⟨front, back, rfl⟩ := List.append_of_mem hs
    exact h.munches.skipped hkind

/-- A token is a match of the rule for its kind. -/
theorem matches_of_mem_tokenize {text : String} {tokens : List Token}
    (h : tokenize text = .ok tokens) {t : Token} (ht : t ∈ tokens) :
    (Rule.token t.kind).Matches t.lexeme.toList := by
  obtain ⟨stretches, hlexed, rfl⟩ := tokenize_eq_ok_iff.1 h
  obtain ⟨front, back, -, -, -, hlongest⟩ := (readsTo_nil_iff.2 hlexed).laidOut.longest t ht
  exact hlongest.matched

/-- Tokens are read by longest matches. -/
theorem tokenize_maximalMunch (text : String) : MaximalMunch text (tokenize text) where
  ok_iff tokens := by
    simp only [readsTo_nil_iff]
    exact tokenize_eq_ok_iff
  laidOut tokens h := by
    obtain ⟨stretches, hlexed, rfl⟩ := tokenize_eq_ok_iff.1 h
    exact (readsTo_nil_iff.2 hlexed).laidOut
  error_iff e := by
    simp only [← Cursor.position_advanceAll]
    exact tokensFrom_eq_error_iff

end SymbolAtlas
