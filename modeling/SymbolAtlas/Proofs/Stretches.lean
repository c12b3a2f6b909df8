import SymbolAtlas.Outline.Basic
import SymbolAtlas.Proofs.Placement
import SymbolAtlas.Token.Lexer

/-!
# Texts as stretches

Reading the tokens of a text cuts it into stretches, one for each lexeme, those
that are skipped included.  The stretches joined give the text back, and the
tokens are the stretches that have a kind, each starting where the stretches in
front of it end.  So tokens stand in order and do not overlap, and an identifier
token is held by its extent.

## Main Definitions

* `Stretch` and `LexedAs`: a text is cut into stretches.
* `tokensOf`: the tokens among some stretches.
* `IsIdentifier`: the words that are identifiers.

## Main Statements

* `tokensFrom_eq_ok_iff`: reading succeeds exactly when the text can be cut.
* `pairwise_tokensOf`: tokens stand in order and do not overlap.
* `holds_identifier`: the extent of an identifier token holds its text.
-/

namespace SymbolAtlas

/-- A stretch of text that is read as one lexeme, which is skipped when it has no
kind. -/
structure Stretch where
  kind : Option Token.Kind
  chars : List Char

/-- The characters of some stretches in a row. -/
def joined (stretches : List Stretch) : List Char := stretches.flatMap (·.chars)

/-- A text is cut into stretches, each the lexeme at its place. -/
inductive LexedAs : List Char → List Stretch → Prop where
  | nil : LexedAs [] []
  | cons {c : Char} {rest : List Char} {lexeme : Lexeme} {stretches : List Stretch}
      (first : firstLexeme c rest = some lexeme)
      (others : LexedAs (rest.drop lexeme.further) stretches) :
      LexedAs (c :: rest) (⟨lexeme.kind, c :: rest.take lexeme.further⟩ :: stretches)

/-- The token that a stretch is, when it starts at a given place. -/
def Stretch.tokens (s : Stretch) (place : Cursor) : List Token :=
  (s.kind.map fun kind => ⟨kind, String.ofList s.chars, place⟩).toList

/-- The tokens among some stretches, the first of which starts at a given place. -/
def tokensOf : Cursor → List Stretch → List Token
  | _, [] => []
  | place, s :: rest => s.tokens place ++ tokensOf (place.advanceAll s.chars) rest

/-- Reading tokens succeeds exactly when the text can be cut into stretches. -/
theorem tokensFrom_eq_ok_iff {place : Cursor} {text : List Char} {tokens : List Token} :
    tokensFrom place text = .ok tokens ↔
      ∃ stretches, LexedAs text stretches ∧ tokens = tokensOf place stretches := by
  constructor
  · intro h
    fun_induction tokensFrom place text generalizing tokens with
    | case1 place => exact ⟨[], .nil, (Except.ok.inj h).symm⟩
    | case2 => cases h
    | case3 => cases h
    | case4 place c rest lexeme hfirst _ others hothers hkind =>
      rename_i ih
      obtain ⟨stretches, hlexed, hstretches⟩ := ih hothers
      refine ⟨_, .cons hfirst hlexed, ?_⟩
      rw [← Except.ok.inj h, hstretches, tokensOf, Stretch.tokens, hkind]
      rfl
    | case5 place c rest lexeme hfirst _ others hothers kind hkind =>
      rename_i ih
      obtain ⟨stretches, hlexed, hstretches⟩ := ih hothers
      refine ⟨_, .cons hfirst hlexed, ?_⟩
      rw [← Except.ok.inj h, hstretches, tokensOf, Stretch.tokens, hkind]
      rfl
  · rintro ⟨stretches, hlexed, rfl⟩
    induction hlexed generalizing place with
    | nil => simp [tokensFrom, tokensOf]
    | @cons c rest lexeme stretches hfirst _ ih =>
      rw [tokensFrom, hfirst]
      simp only [ih]
      cases lexeme.kind <;> simp [tokensOf, Stretch.tokens]

theorem tokenize_eq_ok_iff {text : String} {tokens : List Token} :
    tokenize text = .ok tokens ↔
      ∃ stretches, LexedAs text.toList stretches ∧ tokens = tokensOf Cursor.start stretches :=
  tokensFrom_eq_ok_iff

namespace LexedAs

variable {text : List Char} {stretches : List Stretch}

/-- The stretches of a text joined give the text back. -/
theorem joined_eq (h : LexedAs text stretches) : joined stretches = text := by
  induction h with
  | nil => rfl
  | @cons c rest lexeme stretches _ _ ih =>
    rw [joined, List.flatMap_cons, ← joined, ih, List.cons_append, List.take_append_drop]

theorem ne_nil (h : LexedAs text stretches) {s : Stretch} (hs : s ∈ stretches) : s.chars ≠ [] := by
  induction h with
  | nil => cases hs
  | cons _ _ ih =>
    rcases List.mem_cons.1 hs with rfl | hs
    · exact List.cons_ne_nil _ _
    · exact ih hs

end LexedAs

/-! ## Identifiers -/

/-- A word that is an identifier: it begins like a word, goes on like one and is
not reserved. -/
def IsIdentifier : List Char → Prop
  | [] => False
  | c :: rest =>
    isWordStart c = true ∧ rest.all isWordChar = true ∧ wordKind (c :: rest) = .identifier

instance : DecidablePred IsIdentifier
  | [] => inferInstanceAs (Decidable False)
  | c :: rest => inferInstanceAs (Decidable (isWordStart c = true ∧ rest.all isWordChar = true ∧
      wordKind (c :: rest) = .identifier))

theorem isWordChar_of_isWordStart {c : Char} (h : isWordStart c = true) : isWordChar c = true := by
  simp only [isWordStart, isWordChar, Bool.or_eq_true] at h ⊢
  rcases h with h | h
  · exact .inl (.inl h)
  · exact .inr h

/-- A word character ends no line. -/
theorem ne_lineEnd_of_isWordChar {c : Char} (h : isWordChar c = true) : c ≠ '\n' ∧ c ≠ '\r' := by
  constructor <;>
    · rintro rfl
      revert h
      decide

namespace IsIdentifier

variable {word : List Char}

theorem ne_nil (h : IsIdentifier word) : word ≠ [] := by
  rintro rfl
  exact h

theorem forall_isWordChar (h : IsIdentifier word) : ∀ c ∈ word, isWordChar c = true := by
  cases word with
  | nil => exact h.elim
  | cons c rest =>
    obtain ⟨hstart, hrest, -⟩ := h
    exact List.forall_mem_cons.2 ⟨isWordChar_of_isWordStart hstart, List.all_eq_true.1 hrest⟩

theorem isClean (h : IsIdentifier word) : IsClean word :=
  fun c hc => ne_lineEnd_of_isWordChar (h.forall_isWordChar c hc)

end IsIdentifier

theorem singleKind_ne_identifier (c : Char) : singleKind c ≠ .identifier := by
  unfold singleKind
  repeat' split
  all_goals exact nofun

/-- An identifier is read at a word start, up to the end of the word. -/
theorem eq_takeWhile_of_firstLexeme_identifier {c : Char} {rest : List Char} {lexeme : Lexeme}
    (h : firstLexeme c rest = some lexeme) (hkind : lexeme.kind = some .identifier) :
    isBlank c = false ∧ isWordStart c = true ∧
      lexeme.further = (rest.takeWhile isWordChar).length ∧
      wordKind (c :: rest.takeWhile isWordChar) = .identifier := by
  unfold firstLexeme at h
  split at h
  · obtain rfl := Option.some.inj h
    cases hkind
  · next hblank =>
    split at h
    · next hstart =>
      obtain rfl := Option.some.inj h
      exact ⟨by simpa using hblank, hstart, rfl, Option.some.inj hkind⟩
    · split at h
      · obtain rfl := Option.some.inj h
        cases hkind
      · split at h
        · obtain ⟨n, -, rfl⟩ := Option.map_eq_some_iff.1 h
          cases hkind
        · split at h
          · split at h
            · obtain rfl := Option.some.inj h
              cases hkind
            · obtain ⟨n, -, rfl⟩ := Option.map_eq_some_iff.1 h
              cases hkind
            · obtain rfl := Option.some.inj h
              cases hkind
          · obtain rfl := Option.some.inj h
            exact absurd (Option.some.inj hkind) (singleKind_ne_identifier c)

theorem take_length_takeWhile {α : Type} (p : α → Bool) (l : List α) :
    l.take (l.takeWhile p).length = l.takeWhile p :=
  (List.prefix_iff_eq_take.1 (List.takeWhile_prefix p)).symm

/-- A stretch that is read as an identifier is one. -/
theorem LexedAs.isIdentifier {text : List Char} {stretches : List Stretch}
    (h : LexedAs text stretches) {s : Stretch} (hs : s ∈ stretches)
    (hkind : s.kind = some .identifier) : IsIdentifier s.chars := by
  induction h with
  | nil => cases hs
  | @cons c rest lexeme stretches hfirst _ ih =>
    rcases List.mem_cons.1 hs with rfl | hs
    · obtain ⟨-, hstart, hfurther, hword⟩ := eq_takeWhile_of_firstLexeme_identifier hfirst hkind
      simp only [hfurther, take_length_takeWhile]
      exact ⟨hstart, List.all_takeWhile, hword⟩
    · exact ih hs

/-! ## Where tokens stand -/

/-- The place directly behind a token. -/
def Token.stop (t : Token) : Cursor := t.start.advanceAll t.lexeme.toList

/-- A token is one of the stretches, at the place where those in front end. -/
theorem exists_stretch_of_mem_tokensOf {place : Cursor} {stretches : List Stretch} {t : Token}
    (h : t ∈ tokensOf place stretches) :
    ∃ front s back, stretches = front ++ s :: back ∧
      t = ⟨t.kind, String.ofList s.chars, place.advanceAll (joined front)⟩ ∧
      s.kind = some t.kind := by
  induction stretches generalizing place with
  | nil => cases h
  | cons s stretches ih =>
    rcases List.mem_append.1 h with h | h
    · simp only [Stretch.tokens, Option.mem_toList, Option.map_eq_some_iff] at h
      obtain ⟨kind, hkind, rfl⟩ := h
      exact ⟨[], s, stretches, rfl, rfl, hkind⟩
    · obtain ⟨front, s', back, hsplit, ht, hkind⟩ := ih h
      refine ⟨s :: front, s', back, by rw [hsplit, List.cons_append], ?_, hkind⟩
      rw [joined, List.flatMap_cons, Cursor.advanceAll_append]
      exact ht

theorem tokensOf_append (place : Cursor) (front back : List Stretch) :
    tokensOf place (front ++ back) =
      tokensOf place front ++ tokensOf (place.advanceAll (joined front)) back := by
  induction front generalizing place with
  | nil => rfl
  | cons s front ih =>
    have hjoined : joined (s :: front) = s.chars ++ joined front := rfl
    rw [List.cons_append, tokensOf, ih, tokensOf, List.append_assoc, hjoined,
      Cursor.advanceAll_append]

theorem atOrBefore_of_mem_tokensOf {place : Cursor} {stretches : List Stretch} {t : Token}
    (h : t ∈ tokensOf place stretches) : place.AtOrBefore t.start := by
  obtain ⟨front, s, back, -, ht, -⟩ := exists_stretch_of_mem_tokensOf h
  rw [ht]
  exact Cursor.atOrBefore_advanceAll _ _

/-- Tokens stand in order, and each ends before the next begins. -/
theorem pairwise_tokensOf (place : Cursor) (stretches : List Stretch) :
    (tokensOf place stretches).Pairwise fun a b => a.stop.AtOrBefore b.start := by
  induction stretches generalizing place with
  | nil => exact .nil
  | cons s stretches ih =>
    refine List.pairwise_append.2 ⟨?_, ih _, ?_⟩
    · simp only [Stretch.tokens]
      cases s.kind <;> simp
    · intro a ha b hb
      simp only [Stretch.tokens, Option.mem_toList, Option.map_eq_some_iff] at ha
      obtain ⟨kind, -, rfl⟩ := ha
      simpa [Token.stop] using atOrBefore_of_mem_tokensOf hb

theorem Span.before_of_start {a b : Token} (h : a.start.Before b.start) :
    Span.before a.identifier.span b.identifier.span = true := by
  rcases h with hline | ⟨hline, hcolumn⟩
  · simp [Span.before, Token.identifier, Span.ofName, Token.position, Cursor.position, hline]
  · simp [Span.before, Token.identifier, Span.ofName, Token.position, Cursor.position, hline,
      hcolumn]

section Tokenized

variable {text : String} {tokens : List Token}

theorem pairwise_tokenize (h : tokenize text = .ok tokens) :
    tokens.Pairwise fun a b => a.stop.AtOrBefore b.start := by
  obtain ⟨stretches, -, rfl⟩ := tokenize_eq_ok_iff.1 h
  exact pairwise_tokensOf _ _

theorem ne_nil_of_mem_tokenize (h : tokenize text = .ok tokens) {t : Token} (ht : t ∈ tokens) :
    t.lexeme.toList ≠ [] := by
  obtain ⟨stretches, hlexed, rfl⟩ := tokenize_eq_ok_iff.1 h
  obtain ⟨front, s, back, rfl, heq, -⟩ := exists_stretch_of_mem_tokensOf ht
  rw [heq, String.toList_ofList]
  exact hlexed.ne_nil (by simp)

/-- Each token begins behind the beginnings of those in front of it. -/
theorem pairwise_start_tokenize (h : tokenize text = .ok tokens) :
    tokens.Pairwise fun a b => a.start.Before b.start := by
  refine (pairwise_tokenize h).imp_of_mem fun ha _ hab => ?_
  exact (Cursor.before_advanceAll _ (ne_nil_of_mem_tokenize h ha)).trans_atOrBefore hab

theorem nodup_tokenize (h : tokenize text = .ok tokens) : tokens.Nodup := by
  refine (pairwise_start_tokenize h).imp ?_
  rintro a b hab rfl
  exact Cursor.not_before_self _ hab

/-- The extents of tokens are in order. -/
theorem pairwise_span_tokenize (h : tokenize text = .ok tokens) :
    (tokens.map (·.identifier.span)).Pairwise fun a b => Span.before a b = true := by
  exact List.pairwise_map.2 ((pairwise_start_tokenize h).imp Span.before_of_start)

theorem isIdentifier_of_mem_tokenize (h : tokenize text = .ok tokens) {t : Token} (ht : t ∈ tokens)
    (hkind : t.kind = .identifier) : IsIdentifier t.lexeme.toList := by
  obtain ⟨stretches, hlexed, rfl⟩ := tokenize_eq_ok_iff.1 h
  obtain ⟨front, s, back, rfl, heq, hs⟩ := exists_stretch_of_mem_tokensOf ht
  rw [heq, String.toList_ofList]
  exact hlexed.isIdentifier (by simp) (by rw [hs, hkind])

/-- The extent of an identifier token holds its text. -/
theorem holds_identifier (h : tokenize text = .ok tokens) {t : Token} (ht : t ∈ tokens)
    (hkind : t.kind = .identifier) : holds text t.identifier.span t.lexeme = true := by
  have hword := isIdentifier_of_mem_tokenize h ht hkind
  obtain ⟨stretches, hlexed, rfl⟩ := tokenize_eq_ok_iff.1 h
  obtain ⟨front, s, back, rfl, heq, -⟩ := exists_stretch_of_mem_tokensOf ht
  have htext : text = String.ofList (joined front ++ (s.chars ++ joined back)) := by
    rw [← String.toList_inj, String.toList_ofList, ← hlexed.joined_eq]
    simp [joined]
  rw [heq, String.toList_ofList] at hword
  rw [heq, htext]
  exact holds_word _ hword.ne_nil hword.isClean _

end Tokenized

end SymbolAtlas
