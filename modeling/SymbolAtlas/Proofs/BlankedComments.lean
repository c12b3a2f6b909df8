import SymbolAtlas.Proofs.Grammar
import SymbolAtlas.Proofs.MaximalMunch

/-!
# Texts with blanks for comments

A comment separates tokens like a blank does.  When every character of the comments of a
text but the line feeds becomes a space, tokens end where they ended, since neither a slash
nor a space continues any of them, and they stand at the same lines and columns.  Only their
byte offsets change, and the outline of a text does not depend on these.

## Main Definitions

* `Token.seen`: a token as the reader of outlines sees it, without its byte offset.
* `IsComment`, `Stretch.isComment`: the comments.
* `blankComments`: a text with blanks in the place of its comments.

## Main Statements

* `outlineFrom_map_seen`: outlines do not depend on byte offsets.
* `tokensFrom_blanks`: blanks only move the tokens behind them.
* `endsTokens_blankFrom`: tokens end where they ended.
* `comments_unread`: the text with blanks for comments is read in the same way.
-/

namespace SymbolAtlas

/-! ## Tokens without their offsets -/

/-- A token without its byte offset. -/
def Token.seen (t : Token) : Token := { t with start := { t.start with offset := 0 } }

@[simp] theorem Token.kind_seen (t : Token) : t.seen.kind = t.kind := rfl

@[simp] theorem Token.lexeme_seen (t : Token) : t.seen.lexeme = t.lexeme := rfl

@[simp] theorem Token.position_seen (t : Token) : t.seen.position = t.position := rfl

theorem expect_map_seen (kind : Token.Kind) (what : Expectation) (tokens : List Token) :
    expect kind what (tokens.map Token.seen) =
      (expect kind what tokens).map (Prod.map Token.seen (List.map Token.seen)) := by
  cases tokens with
  | nil => rfl
  | cons t rest =>
    by_cases h : t.kind = kind
    · simp [expect, h, Except.map]
    · simp [expect, h, Except.map]

theorem after?_map_seen (kind : Token.Kind) (tokens : List Token) :
    after? kind (tokens.map Token.seen) = (after? kind tokens).map (List.map Token.seen) := by
  cases tokens with
  | nil => rfl
  | cons t rest => by_cases h : t.kind = kind <;> simp [after?, h]

theorem packageSegments_map_seen (tokens : List Token) :
    packageSegments (tokens.map Token.seen) =
      (packageSegments tokens).map (Prod.map id (List.map Token.seen)) := by
  rw [packageSegments_eq, packageSegments_eq tokens, expect_map_seen]
  cases hname : expect .identifier .packageName tokens with
  | error e => rfl
  | ok s =>
    dsimp only [Except.map, Except.bind, Prod.map_snd]
    rw [after?_map_seen]
    cases hdot : after? .dot s.2 with
    | none => rfl
    | some more =>
      have hless : more.length < tokens.length :=
        Nat.lt_trans (length_lt_of_after? hdot) (length_lt_of_expect hname)
      dsimp only [Option.map_some]
      rw [packageSegments_map_seen more]
      cases packageSegments more <;> rfl
termination_by tokens.length

theorem importItem_map_seen (tokens : List Token) :
    importItem (tokens.map Token.seen) =
      (importItem tokens).map (Prod.map id (List.map Token.seen)) := by
  unfold importItem
  rw [expect_map_seen]
  cases expect .identifier .symbolName tokens with
  | error e => rfl
  | ok s =>
    dsimp only [Except.map, Prod.map]
    rw [after?_map_seen]
    cases after? .asWord s.2 with
    | none => rfl
    | some rest =>
      dsimp only [Option.map_some]
      rw [expect_map_seen]
      cases expect .identifier .aliasName rest <;> rfl

theorem importItems_map_seen (tokens : List Token) :
    importItems (tokens.map Token.seen) =
      (importItems tokens).map (Prod.map id (Prod.map id (List.map Token.seen))) := by
  rw [importItems_eq, importItems_eq tokens, importItem_map_seen]
  cases hitem : importItem tokens with
  | error e => rfl
  | ok s =>
    dsimp only [Except.map, Except.bind, Prod.map_snd]
    rw [after?_map_seen]
    cases hcomma : after? .comma s.2 with
    | none => rfl
    | some more =>
      have hless : more.length < tokens.length :=
        Nat.lt_trans (length_lt_of_after? hcomma) (length_lt_of_importItem hitem)
      dsimp only [Option.map_some]
      rw [importItems_map_seen more]
      cases importItems more <;> rfl
termination_by tokens.length

theorem importStatement_map_seen (tokens : List Token) :
    importStatement (tokens.map Token.seen) =
      (importStatement tokens).map (Prod.map id (List.map Token.seen)) := by
  have hdots : (fun t : Token => decide (t.kind = .dot)) ∘ Token.seen =
      fun t => decide (t.kind = .dot) := rfl
  unfold importStatement
  dsimp only
  rw [List.takeWhile_map, List.dropWhile_map, hdots, packageSegments_map_seen, List.length_map]
  cases packageSegments (tokens.dropWhile (·.kind = .dot)) with
  | error e => rfl
  | ok s =>
    dsimp only [Except.map, Prod.map]
    rw [expect_map_seen]
    cases expect .importWord .importWord s.2 with
    | error e => rfl
    | ok s' =>
      dsimp only [Except.map, Prod.map]
      rw [importItems_map_seen]
      cases importItems s'.2 <;> rfl

/-- The outline of tokens does not depend on their byte offsets. -/
theorem outlineFrom_map_seen (braces tokens : List Token) :
    outlineFrom (braces.map Token.seen) (tokens.map Token.seen) = outlineFrom braces tokens := by
  fun_induction outlineFrom braces tokens with
  | case1 braces brace hlast =>
    rw [List.map_nil, outlineFrom, List.getLast?_map, hlast]
    rfl
  | case2 braces hlast =>
    rw [List.map_nil, outlineFrom, List.getLast?_map, hlast]
    rfl
  | case3 braces t rest hkind ih =>
    rw [List.map_cons, outlineFrom_openBrace (by exact hkind)]
    exact ih
  | case4 t rest hkind =>
    exact outlineFrom_unmatched (t := t.seen) hkind
  | case5 t rest hkind brace outer ih =>
    rw [List.map_cons, List.map_cons, outlineFrom_closeBrace (by exact hkind)]
    exact ih
  | case6 braces t rest hkind ih =>
    rw [List.map_cons, outlineFrom_identifier (by exact hkind), ih]
    rfl
  | case7 braces t rest e hstatement _ _ _ hfrom =>
    obtain ⟨hbraces, hkind⟩ := Bool.and_eq_true_iff.1 hfrom
    obtain rfl := List.isEmpty_iff.1 hbraces
    rw [List.map_nil, List.map_cons, outlineFrom_fromWord (by exact of_decide_eq_true hkind),
      importStatement_map_seen, hstatement]
    rfl
  | case8 braces t rest s left hstatement _ _ _ _ hfrom ih =>
    obtain ⟨hbraces, hkind⟩ := Bool.and_eq_true_iff.1 hfrom
    obtain rfl := List.isEmpty_iff.1 hbraces
    rw [List.map_nil, List.map_cons, outlineFrom_fromWord (by exact of_decide_eq_true hkind),
      importStatement_map_seen, hstatement, ← ih]
    rfl
  | case9 braces t rest kind hbraces e hname _ _ _ _ hkind =>
    obtain rfl := List.isEmpty_iff.1 hbraces
    rw [List.map_nil, List.map_cons, outlineFrom_declaring (by exact hkind), expect_map_seen, hname]
    rfl
  | case10 braces t rest kind hbraces name left hname _ _ _ _ _ hkind ih =>
    obtain rfl := List.isEmpty_iff.1 hbraces
    rw [List.map_nil, List.map_cons, outlineFrom_declaring (by exact hkind), expect_map_seen,
      hname, ← ih]
    rfl
  | case11 braces t rest hopen hclose hidentifier hfrom hdeclared ih =>
    have hunheaded : braces.map Token.seen = [] →
        t.kind ≠ .fromWord ∧ declKind? t.kind = none := by
      intro hbraces
      obtain rfl := List.map_eq_nil_iff.1 hbraces
      exact ⟨by simpa using hfrom,
        Option.eq_none_iff_forall_ne_some.2 fun kind => hdeclared kind rfl⟩
    rw [List.map_cons, outlineFrom_passed (t := t.seen) ⟨hopen, hclose⟩ hidentifier hunheaded, ih]

/-- The outline of a text is read off the tokens without their byte offsets. -/
theorem parse_eq_bind_seen (text : String) :
    Outline.parse text = ((tokenize text).map (List.map Token.seen)).bind (outlineFrom []) := by
  unfold Outline.parse
  cases tokenize text with
  | error e => rfl
  | ok tokens => exact (outlineFrom_map_seen [] tokens).symm

/-! ## Reading over blanks -/

/-- Reading takes the first lexeme and goes on behind it. -/
theorem tokensFrom_cons_append {c : Char} {tail rest : List Char} {kind : Option Token.Kind}
    (place : Cursor) (h : firstLexeme c (tail ++ rest) = some ⟨kind, tail.length⟩) :
    tokensFrom place (c :: (tail ++ rest)) =
      (tokensFrom (place.advanceAll (c :: tail)) rest).map
        (Stretch.tokens ⟨kind, c :: tail⟩ place ++ ·) := by
  rw [tokensFrom, h]
  dsimp only
  rw [List.take_left, List.drop_left]
  cases tokensFrom (place.advanceAll (c :: tail)) rest with
  | error e => rfl
  | ok tokens => cases kind <;> rfl

theorem map_tokens_skipped (chars : List Char) (place : Cursor)
    (tokens : Except SyntaxError (List Token)) :
    tokens.map (Stretch.tokens ⟨none, chars⟩ place ++ ·) = tokens := by
  cases tokens <;> rfl

/-- Reading goes over the blanks that a text begins with. -/
theorem tokensFrom_dropWhile (place : Cursor) (text : List Char) :
    tokensFrom place text =
      tokensFrom (place.advanceAll (text.takeWhile isBlank)) (text.dropWhile isBlank) := by
  cases text with
  | nil => rfl
  | cons c rest =>
    by_cases hc : isBlank c = true
    · have hfirst : firstLexeme c (rest.takeWhile isBlank ++ rest.dropWhile isBlank) =
          some ⟨none, (rest.takeWhile isBlank).length⟩ := by
        rw [List.takeWhile_append_dropWhile]
        unfold firstLexeme
        rw [if_pos hc]
      have hread := tokensFrom_cons_append place hfirst
      rw [map_tokens_skipped, List.takeWhile_append_dropWhile] at hread
      rw [List.takeWhile_cons_of_pos hc, List.dropWhile_cons_of_pos hc, hread]
    · rw [List.takeWhile_cons_of_neg hc, List.dropWhile_cons_of_neg hc]
      rfl

/-- Blanks only move the tokens behind them. -/
theorem tokensFrom_blanks {run : List Char} (h : ∀ c ∈ run, isBlank c = true) (place : Cursor)
    (rest : List Char) :
    tokensFrom place (run ++ rest) = tokensFrom (place.advanceAll run) rest := by
  rw [tokensFrom_dropWhile, tokensFrom_dropWhile _ rest, List.takeWhile_append_of_pos h,
    List.dropWhile_append_of_pos h, Cursor.advanceAll_append]

/-! ## Blanks for comments -/

/-- What a character of a comment becomes: a space, unless it is a line feed. -/
def blankChar (c : Char) : Char := if c = '\n' then c else ' '

theorem isBlank_blankChar (c : Char) : isBlank (blankChar c) = true := by
  unfold blankChar
  split
  · next hc => rw [hc]; rfl
  · rfl

theorem blankChar_eq_feed_iff (c : Char) : blankChar c = '\n' ↔ c = '\n' := by
  unfold blankChar
  split
  · exact Iff.rfl
  · next hc => simp [hc]

/-- A comment goes to the end of its line, or up to the first star-slash. -/
def IsComment (chars : List Char) : Prop :=
  Rule.lineComment.Matches chars ∨
    ∃ body, CommentBody body ∧ chars = '/' :: '*' :: (body ++ ['*', '/'])

/-- Whether a stretch is a comment: it is skipped and begins with a slash. -/
def Stretch.isComment (s : Stretch) : Bool := s.kind.isNone && s.chars.head? == some '/'

/-- The characters of a stretch, with blanks for those of a comment. -/
def Stretch.blanked (s : Stretch) : List Char :=
  if s.isComment then s.chars.map blankChar else s.chars

/-- A text with blanks for its comments.  From where no lexeme can be read on, it stays. -/
def blankFrom : List Char → List Char
  | [] => []
  | c :: rest =>
    match firstLexeme c rest with
    | none => c :: rest
    | some lexeme =>
      Stretch.blanked ⟨lexeme.kind, c :: rest.take lexeme.further⟩ ++
        blankFrom (rest.drop lexeme.further)
termination_by text => text.length
decreasing_by simp only [List.length_drop, List.length_cons]; omega

/-- A text with blanks for its comments. -/
def blankComments (text : String) : String := String.ofList (blankFrom text.toList)

/-- Stretch by stretch, the comments become blanks. -/
theorem LexedAs.blankFrom_eq {text : List Char} {stretches : List Stretch}
    (h : LexedAs text stretches) : blankFrom text = stretches.flatMap Stretch.blanked := by
  induction h with
  | nil => rw [blankFrom]; rfl
  | cons first others ih => rw [blankFrom, first, List.flatMap_cons, ← ih]

/-- Of what is skipped, the comments are what begins with a slash. -/
theorem Skipped.isComment_iff {chars : List Char} (h : Skipped chars) :
    Stretch.isComment ⟨none, chars⟩ = true ↔ IsComment chars := by
  constructor
  · intro hcomment
    cases h with
    | blanks matched =>
      have hslash : chars.head? = some '/' := by simpa [Stretch.isComment] using hcomment
      exact absurd (matched.2 '/' (List.mem_of_head? hslash)) (by decide)
    | lineComment matched => exact .inl matched
    | comment first => exact .inr ⟨_, first, rfl⟩
  · rintro (⟨body, rfl, -⟩ | ⟨body, -, rfl⟩) <;> rfl

theorem Stretch.blanked_token (kind : Token.Kind) (chars : List Char) :
    Stretch.blanked ⟨some kind, chars⟩ = chars := rfl

/-- What is skipped becomes a run of blanks. -/
theorem Skipped.isBlank_blanked {chars : List Char} (h : Skipped chars) :
    ∀ c ∈ Stretch.blanked ⟨none, chars⟩, isBlank c = true := by
  have hcomment : ∀ c ∈ chars.map blankChar, isBlank c = true := by
    intro c hc
    obtain ⟨d, -, rfl⟩ := List.mem_map.1 hc
    exact isBlank_blankChar d
  cases h with
  | blanks matched =>
    unfold Stretch.blanked
    split
    · exact hcomment
    · exact matched.2
  | lineComment matched =>
    obtain ⟨body, rfl, -⟩ := matched
    exact hcomment
  | comment first => exact hcomment

/-! ## Where tokens end and stand -/

/-- Only a slash at the beginning of a text may become a space. -/
theorem head?_blankFrom (text : List Char) :
    (blankFrom text).head? = text.head? ∨
      text.head? = some '/' ∧ (blankFrom text).head? = some ' ' := by
  cases text with
  | nil => rw [blankFrom]; exact .inl rfl
  | cons c rest =>
    rw [blankFrom]
    cases firstLexeme c rest with
    | none => exact .inl rfl
    | some lexeme =>
      dsimp only [Stretch.blanked]
      split
      · next hcomment =>
        have hc : c = '/' := by simpa [Stretch.isComment] using (Bool.and_eq_true_iff.1 hcomment).2
        subst hc
        exact .inr ⟨rfl, rfl⟩
      · exact .inl rfl

theorem any_head?_blankFrom {p : Char → Bool} (hp : p '/' = p ' ') (text : List Char) :
    text.head?.any p = (blankFrom text).head?.any p := by
  rcases head?_blankFrom text with heq | ⟨hslash, hspace⟩
  · rw [heq]
  · rw [hslash, hspace]
    exact hp

theorem head?_of_head?_blankFrom {text : List Char} {c : Char} (hc : c ≠ ' ')
    (h : (blankFrom text).head? = some c) : text.head? = some c := by
  rcases head?_blankFrom text with heq | ⟨-, hspace⟩
  · rw [← heq, h]
  · exact absurd (Option.some.inj (h.symm.trans hspace)) hc

theorem blankFrom_dot (rest : List Char) : blankFrom ('.' :: rest) = '.' :: blankFrom rest := by
  have hfirst : firstLexeme '.' rest = some ⟨some .dot, 0⟩ := rfl
  rw [blankFrom, hfirst]
  rfl

/-- In front of a text and of the text with blanks for comments, tokens end in the same way. -/
theorem endsTokens_blankFrom (text : List Char) : EndsTokens text (blankFrom text) where
  word := any_head?_blankFrom (by decide) text
  digit := any_head?_blankFrom (by decide) text
  fraction hdot := by
    have hdot' := head?_of_head?_blankFrom (by decide) hdot
    obtain ⟨rest, rfl⟩ : ∃ rest, text = '.' :: rest :=
      ⟨text.tail, (List.cons_head?_tail hdot').symm⟩
    rw [blankFrom_dot]
    exact ⟨rfl, any_head?_blankFrom (by decide) rest⟩
  slash := head?_of_head?_blankFrom (by decide)
  star := head?_of_head?_blankFrom (by decide)

/-- A cursor moves alike along texts that have their line feeds at the same places. -/
theorem Cursor.position_advanceAll_map {f : Char → Char} (hf : ∀ c, f c = '\n' ↔ c = '\n')
    {place place' : Cursor} (h : place'.position = place.position) (chars : List Char) :
    (place'.advanceAll (chars.map f)).position = (place.advanceAll chars).position := by
  induction chars generalizing place place' with
  | nil => exact h
  | cons c chars ih =>
    refine ih ?_
    obtain ⟨hline, hcolumn⟩ := Position.mk.inj h
    by_cases hc : c = '\n'
    · simp [advance, position, hc, (hf _).2, hline]
    · simp [advance, position, hc, hf, hline, hcolumn]

theorem Stretch.position_advanceAll_blanked (s : Stretch) {place place' : Cursor}
    (h : place'.position = place.position) :
    (place'.advanceAll s.blanked).position = (place.advanceAll s.chars).position := by
  unfold blanked
  split
  · exact Cursor.position_advanceAll_map blankChar_eq_feed_iff h s.chars
  · simpa using Cursor.position_advanceAll_map (f := id) (fun _ => Iff.rfl) h s.chars

theorem Stretch.map_seen_tokens (s : Stretch) {place place' : Cursor}
    (h : place'.position = place.position) :
    (s.tokens place').map Token.seen = (s.tokens place).map Token.seen := by
  obtain ⟨hline, hcolumn⟩ := Position.mk.inj h
  obtain ⟨kind, chars⟩ := s
  cases kind with
  | none => rfl
  | some kind => simp [Stretch.tokens, Token.seen, hline, hcolumn]

theorem map_seen_append (front : List Token) (back : Except SyntaxError (List Token)) :
    (back.map (front ++ ·)).map (List.map Token.seen) =
      (back.map (List.map Token.seen)).map (front.map Token.seen ++ ·) := by
  cases back with
  | error e => rfl
  | ok tokens => exact congrArg Except.ok List.map_append

/-- The text with blanks for comments has the same tokens at the same lines and columns. -/
theorem tokensFrom_blankFrom {place place' : Cursor} (h : place'.position = place.position)
    (text : List Char) :
    (tokensFrom place' (blankFrom text)).map (List.map Token.seen) =
      (tokensFrom place text).map (List.map Token.seen) := by
  fun_induction blankFrom text generalizing place place' with
  | case1 => rw [tokensFrom, tokensFrom]
  | case2 c rest hfirst => rw [tokensFrom, tokensFrom, hfirst, h]
  | case3 c rest lexeme hfirst ih =>
    obtain ⟨kind, n⟩ := lexeme
    have hplace := Stretch.position_advanceAll_blanked ⟨kind, c :: rest.take n⟩ h
    have hfirst' : firstLexeme c (rest.take n ++ rest.drop n) =
        some ⟨kind, (rest.take n).length⟩ := by
      rw [List.take_append_drop, List.length_take_of_le (further_le_length hfirst), hfirst]
    have hread := tokensFrom_cons_append place hfirst'
    rw [List.take_append_drop] at hread
    rw [hread]
    cases kind with
    | none =>
      have hskipped := (munches_of_firstLexeme hfirst).skipped rfl
      rw [tokensFrom_blanks hskipped.isBlank_blanked, map_tokens_skipped]
      exact ih hplace
    | some kind =>
      -- what stands behind the token has changed, but ends it in the same place
      have hkept := firstLexeme_token_congr (endsTokens_blankFrom (rest.drop n)) hfirst'
      rw [Stretch.blanked_token, List.cons_append, tokensFrom_cons_append place' hkept,
        map_seen_append, map_seen_append, Stretch.map_seen_tokens _ h]
      exact congrArg _ (ih hplace)

/-! ## Whole texts -/

/-- Comments are not read: with blanks for the characters of its comments, line feeds apart, a
text has the same outline, or the same error. -/
structure CommentsUnread (text : String) : Prop where
  blanked : ∀ stretches, ReadsTo text.toList stretches [] →
    (blankComments text).toList = stretches.flatMap Stretch.blanked
  comments : ∀ stretches, ReadsTo text.toList stretches [] → ∀ s ∈ stretches, s.kind = none →
    (s.isComment = true ↔ IsComment s.chars)
  parse_eq : Outline.parse (blankComments text) = Outline.parse text

/-- The comments of a text are not read. -/
theorem comments_unread (text : String) : CommentsUnread text where
  blanked stretches h := by
    rw [blankComments, String.toList_ofList, (readsTo_nil_iff.1 h).blankFrom_eq]
  comments stretches h s hs hkind := by
    obtain ⟨front, back, rfl⟩ := List.append_of_mem hs
    obtain ⟨kind, chars⟩ := s
    obtain rfl : kind = none := hkind
    exact (h.munches.skipped rfl).isComment_iff
  parse_eq := by
    have hseen : (tokenize (blankComments text)).map (List.map Token.seen) =
        (tokenize text).map (List.map Token.seen) := by
      rw [tokenize, blankComments, String.toList_ofList]
      exact tokensFrom_blankFrom rfl _
    rw [parse_eq_bind_seen, hseen, ← parse_eq_bind_seen]

example : blankComments "a//é\n1./*\n*/5 \"//\"" = "a   \n1.  \n  5 \"//\"" := by decide +kernel

end SymbolAtlas
