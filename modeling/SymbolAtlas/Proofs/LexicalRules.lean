import SymbolAtlas.Proofs.Relexing

/-!
# The rules for lexemes

Each kind of lexeme has a rule that says which words it takes, without regard to what
stands behind them.  Several rules may match at one place, and one rule may match words of
different lengths there.  Of all these matches the longest counts, and of the rules that
match it a reserved word goes before an identifier.

## Main Definitions

* `Rule`, `Rule.Matches`: the rules, and the words that they match.
* `Longest`: a match at the beginning of a text is the one that counts.
* `QuotedBody`: what can stand between the quotes of a string.
* `Beginning`, `Rule.beginnings`: how the first character of a match decides on its rule.

## Main Statements

* `Longest.unique`: there is one longest match.
* `Rule.Matches.beginning`: the first character of a match is one that its rule begins with.
* `length_le_numberLength`, `exists_number`: where numbers end.
* `quotedLength_of_body`, `exists_body_of_quotedLength`: where strings end.
* `commentLength_of_body`, `exists_body_of_commentLength`: where comments end.
-/

namespace SymbolAtlas

/-! ## Rules -/

/-- The rules for lexemes.  For a comment between slash-star and star-slash there is a rule
for its opening only. -/
inductive Rule where
  | blanks
  | lineComment
  | commentOpening
  | token (kind : Token.Kind)
deriving DecidableEq, Repr

/-- What can stand between the quotes of a string: characters other than quotes, backslashes
and line feeds, and pairs of a backslash and any character but a line feed. -/
inductive QuotedBody : List Char → Prop where
  | nil : QuotedBody []
  | plain {c : Char} {body : List Char} (quote : c ≠ '"') (backslash : c ≠ '\\')
      (feed : c ≠ '\n') (others : QuotedBody body) : QuotedBody (c :: body)
  | escape {c : Char} {body : List Char} (feed : c ≠ '\n') (others : QuotedBody body) :
      QuotedBody ('\\' :: c :: body)

/-- The fraction of a number is a dot and at least one digit, or nothing. -/
def IsFraction (fraction : List Char) : Prop :=
  fraction = [] ∨ ∃ digits, fraction = '.' :: digits ∧ digits ≠ [] ∧
    ∀ d ∈ digits, isDigitChar d = true

/-- A punctuation character is no word character, no blank and no character that has a
meaning of its own. -/
def isPunctuation (c : Char) : Bool :=
  !isWordChar c && !isBlank c && !(['\x7b', '\x7d', ',', '.', '"'].contains c)

/-- The words of the kinds of token that are always spelt alike. -/
def Token.Kind.spelling? : Token.Kind → Option (List Char)
  | .fromWord => some ['f', 'r', 'o', 'm']
  | .importWord => some ['i', 'm', 'p', 'o', 'r', 't']
  | .asWord => some ['a', 's']
  | .typeWord => some ['t', 'y', 'p', 'e']
  | .interfaceWord => some ['i', 'n', 't', 'e', 'r', 'f', 'a', 'c', 'e']
  | .serviceWord => some ['s', 'e', 'r', 'v', 'i', 'c', 'e']
  | .openBrace => some ['\x7b']
  | .closeBrace => some ['\x7d']
  | .comma => some [',']
  | .dot => some ['.']
  | .identifier => none
  | .number => none
  | .quoted => none
  | .punctuation => none

namespace Rule

/-- The kind of the tokens that a rule is for; other rules are for what is skipped. -/
def kind? : Rule → Option Token.Kind
  | token kind => some kind
  | _ => none

/-- The words that a rule matches. -/
def Matches : Rule → List Char → Prop
  | blanks, word => word ≠ [] ∧ ∀ c ∈ word, isBlank c = true
  | lineComment, word => ∃ body, word = '/' :: '/' :: body ∧ '\n' ∉ body
  | commentOpening, word => word = ['/', '*']
  | token .identifier, word => ∃ c others, word = c :: others ∧ isWordStart c = true ∧
      ∀ d ∈ others, isWordChar d = true
  | token .number, word => ∃ c others fraction, word = c :: (others ++ fraction) ∧
      isDigitChar c = true ∧ (∀ d ∈ others, isWordChar d = true) ∧ IsFraction fraction
  | token .quoted, word => ∃ body, word = '"' :: (body ++ ['"']) ∧ QuotedBody body
  | token .punctuation, word => ∃ c, word = [c] ∧ isPunctuation c = true
  | token kind, word => kind.spelling? = some word

end Rule

/-- A rule counts for the first characters of a text, behind which the rest stands: it
matches them, no rule matches more, and the only other rule that may match as much is that
for identifiers. -/
structure Longest (rule : Rule) (chars rest : List Char) : Prop where
  matched : rule.Matches chars
  longest : ∀ other word, Rule.Matches other word → word <+: chars ++ rest →
    word.length ≤ chars.length
  preferred : ∀ other, Rule.Matches other chars → other = rule ∨ other = .token .identifier

/-- There is one longest match at the beginning of a text. -/
theorem Longest.unique {rule rule' : Rule} {chars chars' rest rest' : List Char}
    (h : Longest rule chars rest) (h' : Longest rule' chars' rest')
    (htext : chars ++ rest = chars' ++ rest') :
    rule = rule' ∧ chars = chars' ∧ rest = rest' := by
  have hle : chars.length ≤ chars'.length :=
    h'.longest rule chars h.matched (htext ▸ List.prefix_append chars rest)
  have hge : chars'.length ≤ chars.length :=
    h.longest rule' chars' h'.matched (htext ▸ List.prefix_append chars' rest')
  obtain ⟨rfl, rfl⟩ := List.append_inj htext (Nat.le_antisymm hle hge)
  refine ⟨?_, rfl, rfl⟩
  rcases h.preferred rule' h'.matched with heq | hidentifier
  · exact heq.symm
  · rcases h'.preferred rule h.matched with heq | hidentifier'
    · exact heq
    · rw [hidentifier, hidentifier']

/-! ## First characters -/

/-- What the first character of a lexeme is. -/
inductive Beginning where
  | blank
  | word
  | digit
  | quote
  | slash
  | single
deriving DecidableEq, Repr

/-- What a character is at the beginning of a lexeme. -/
def beginningOf (c : Char) : Beginning :=
  if isBlank c then .blank
  else if isWordStart c then .word
  else if isDigitChar c then .digit
  else if c = '"' then .quote
  else if c = '/' then .slash
  else .single

/-- What the matches of a rule can begin with. -/
def Rule.beginnings : Rule → List Beginning
  | blanks => [.blank]
  | lineComment => [.slash]
  | commentOpening => [.slash]
  | token .number => [.digit]
  | token .quoted => [.quote]
  | token .punctuation => [.slash, .single]
  | token .openBrace => [.single]
  | token .closeBrace => [.single]
  | token .comma => [.single]
  | token .dot => [.single]
  | token _ => [.word]

theorem isWordChar_eq (c : Char) : isWordChar c = (isWordStart c || isDigitChar c) := by
  rw [isWordChar, isWordStart, Bool.or_right_comm]

theorem isBlank_of_isDigitChar {c : Char} (h : isDigitChar c = true) : isBlank c = false := by
  rw [← Bool.not_eq_true]
  intro hblank
  simp only [isBlank, Bool.or_eq_true, beq_iff_eq] at hblank
  rcases hblank with (((rfl | rfl) | rfl) | rfl) | rfl <;> exact absurd h (by decide)

theorem isWordStart_of_isDigitChar {c : Char} (h : isDigitChar c = true) :
    isWordStart c = false := by
  rw [← Bool.not_eq_true]
  intro hstart
  rw [isDigitChar_of_isWordStart hstart] at h
  cases h

/-- A punctuation character begins no other lexeme, a slash apart. -/
theorem isPunctuation_iff {c : Char} :
    isPunctuation c = true ↔ isBlank c = false ∧ isWordStart c = false ∧ isDigitChar c = false ∧
      c ≠ '"' ∧ singleKind c = .punctuation := by
  simp only [isPunctuation, isWordChar_eq, singleKind, List.contains_eq_mem, Bool.and_eq_true,
    Bool.not_eq_true', Bool.or_eq_false_iff, decide_eq_false_iff_not, List.mem_cons,
    List.not_mem_nil, or_false, not_or]
  grind

/-- The first character of a match is one that its rule begins with. -/
theorem Rule.Matches.beginning {rule : Rule} {c : Char} {others : List Char}
    (h : rule.Matches (c :: others)) : beginningOf c ∈ rule.beginnings := by
  cases rule with
  | blanks =>
    have hc : isBlank c = true := h.2 c List.mem_cons_self
    simp [beginningOf, hc, beginnings]
  | lineComment =>
    obtain ⟨body, heq, -⟩ := h
    obtain ⟨rfl, -⟩ := List.cons.inj heq
    decide
  | commentOpening =>
    obtain ⟨rfl, -⟩ := List.cons.inj h
    decide
  | token kind =>
    cases kind with
    | identifier =>
      obtain ⟨d, more, heq, hstart, -⟩ := h
      obtain ⟨rfl, -⟩ := List.cons.inj heq
      simp [beginningOf, isBlank_of_isWordStart hstart, hstart, beginnings]
    | number =>
      obtain ⟨d, more, fraction, heq, hdigit, -⟩ := h
      obtain ⟨rfl, -⟩ := List.cons.inj heq
      simp [beginningOf, isBlank_of_isDigitChar hdigit, isWordStart_of_isDigitChar hdigit, hdigit,
        beginnings]
    | quoted =>
      obtain ⟨body, heq, -⟩ := h
      obtain ⟨rfl, -⟩ := List.cons.inj heq
      decide
    | punctuation =>
      obtain ⟨d, heq, hd⟩ := h
      obtain ⟨rfl, -⟩ := List.cons.inj heq
      obtain ⟨hblank, hstart, hdigit, hquote, -⟩ := isPunctuation_iff.1 hd
      by_cases hslash : c = '/'
      · subst hslash
        decide
      · simp [beginningOf, hblank, hstart, hdigit, hquote, hslash, beginnings]
    | _ =>
      obtain ⟨rfl, -⟩ := List.cons.inj (Option.some.inj h)
      decide

theorem Rule.ne_nil_of_matches {rule : Rule} {word : List Char} (h : rule.Matches word) :
    word ≠ [] := by
  rintro rfl
  cases rule with
  | blanks => exact h.1 rfl
  | lineComment => obtain ⟨_, heq, -⟩ := h; cases heq
  | commentOpening => cases h
  | token kind =>
    cases kind with
    | identifier => obtain ⟨_, _, heq, -⟩ := h; cases heq
    | number => obtain ⟨_, _, _, heq, -⟩ := h; cases heq
    | quoted => obtain ⟨_, heq, -⟩ := h; cases heq
    | punctuation => obtain ⟨_, heq, -⟩ := h; cases heq
    | _ => cases h

/-! ## Runs of characters -/

/-- A run of characters is no longer than the longest one. -/
theorem length_le_takeWhile {α : Type} {p : α → Bool} {run text : List α} (hrun : run <+: text)
    (hp : ∀ a ∈ run, p a = true) : run.length ≤ (text.takeWhile p).length := by
  obtain ⟨back, rfl⟩ := hrun
  rw [List.takeWhile_append_of_pos hp, List.length_append]
  exact Nat.le_add_right _ _

/-! ## Numbers -/

/-- A number, behind its first digit, is no longer than the longest one. -/
theorem length_le_numberLength {others fraction text : List Char}
    (hfront : others ++ fraction <+: text) (hothers : ∀ c ∈ others, isWordChar c = true)
    (hfraction : IsFraction fraction) : (others ++ fraction).length ≤ numberLength text := by
  obtain ⟨back, rfl⟩ := hfront
  rw [List.append_assoc, numberLength_append hothers, List.length_append]
  apply Nat.add_le_add_left
  rcases hfraction with rfl | ⟨digits, rfl, hne, hdigits⟩
  · exact Nat.zero_le _
  · have hrun := length_le_takeWhile (List.prefix_append digits back) hdigits
    have hpos := List.length_pos_iff.2 hne
    rw [List.cons_append, numberLength_of_not_isWordChar rfl]
    simp only [fractionLength, List.length_cons]
    rw [if_neg (by omega)]
    omega

theorem isFraction_take (text : List Char) : IsFraction (text.take (fractionLength text)) := by
  unfold fractionLength
  split
  · next rest =>
    dsimp only
    split
    · exact .inl rfl
    · next hdigits =>
      refine .inr ⟨rest.takeWhile isDigitChar, ?_, ?_, List.all_eq_true.1 List.all_takeWhile⟩
      · rw [List.take_succ_cons, take_length_takeWhile]
      · exact List.ne_nil_of_length_pos (Nat.pos_of_ne_zero hdigits)
  · exact .inl rfl

/-- The longest number, behind its first digit. -/
theorem exists_number (text : List Char) :
    ∃ others fraction, text.take (numberLength text) = others ++ fraction ∧
      (∀ c ∈ others, isWordChar c = true) ∧ IsFraction fraction := by
  refine ⟨text.takeWhile isWordChar, _, ?_, List.all_eq_true.1 List.all_takeWhile,
    isFraction_take (text.dropWhile isWordChar)⟩
  calc text.take (numberLength text)
      = (text.takeWhile isWordChar ++ text.dropWhile isWordChar).take
          ((text.takeWhile isWordChar).length + fractionLength (text.dropWhile isWordChar)) := by
        rw [List.takeWhile_append_dropWhile]
        rfl
    _ = _ := List.take_length_add_append _

/-! ## Strings -/

/-- The end of a string is its first quote that no backslash escapes. -/
theorem quotedLength_of_body {body : List Char} (h : QuotedBody body) (back : List Char) :
    quotedLength (body ++ '"' :: back) = some (body.length + 1) := by
  induction h with
  | nil => simp [quotedLength]
  | @plain c body quote backslash feed _ ih =>
    rw [List.cons_append, quotedLength, ih]
    · simp [feed, backslash]
    · exact quote
    · exact fun _ _ heq => absurd heq backslash
  | @escape c body feed _ ih => simp [quotedLength, feed, ih]

theorem exists_body_of_quotedLength {text : List Char} {n : Nat}
    (h : quotedLength text = some n) :
    ∃ body back, text = body ++ '"' :: back ∧ QuotedBody body ∧ n = body.length + 1 := by
  fun_induction quotedLength text generalizing n with
  | case1 => cases h
  | case2 back => exact ⟨[], back, rfl, .nil, (Option.some.inj h).symm⟩
  | case3 => cases h
  | case4 c more hc ih =>
    obtain ⟨k, hk, rfl⟩ := Option.map_eq_some_iff.1 h
    obtain ⟨body, back, rfl, hbody, rfl⟩ := ih hk
    exact ⟨'\\' :: c :: body, back, rfl, .escape hc hbody, rfl⟩
  | case5 => cases h
  | case6 c more hquote _ hc ih =>
    obtain ⟨k, hk, rfl⟩ := Option.map_eq_some_iff.1 h
    obtain ⟨body, back, rfl, hbody, rfl⟩ := ih hk
    simp only [Bool.or_eq_true, decide_eq_true_eq, not_or] at hc
    exact ⟨c :: body, back, rfl, .plain hquote hc.2 hc.1 hbody, rfl⟩

/-! ## Comments -/

/-- A body of a comment does not close it early: star-slash stands only behind it. -/
def CommentBody (body : List Char) : Prop := ¬ ['*', '/'] <:+: body ++ ['*']

theorem commentBody_nil : CommentBody [] := by
  unfold CommentBody
  decide

theorem commentBody_cons {c : Char} {body : List Char} :
    CommentBody (c :: body) ↔ CommentBody body ∧ ∀ more, c = '*' → body ≠ '/' :: more := by
  have hfront : ['*', '/'] <+: c :: (body ++ ['*']) ↔ ∃ more, c = '*' ∧ body = '/' :: more := by
    cases body with
    | nil => simp
    | cons d body => simp [List.cons_prefix_cons, eq_comm]
  rw [CommentBody, CommentBody, List.cons_append, List.infix_cons_iff, hfront]
  grind

/-- The end of a comment is the first star-slash. -/
theorem commentLength_of_body {body : List Char} (h : CommentBody body) (back : List Char) :
    commentLength (body ++ '*' :: '/' :: back) = some (body.length + 2) := by
  induction body with
  | nil => simp [commentLength]
  | cons c body ih =>
    obtain ⟨hbody, hfirst⟩ := commentBody_cons.1 h
    rw [List.cons_append, commentLength, ih hbody]
    · rfl
    · intro more hc hback
      cases body with
      | nil => cases hback
      | cons d body =>
        obtain ⟨rfl, -⟩ := List.cons.inj hback
        exact hfirst body hc rfl

theorem exists_body_of_commentLength {text : List Char} {n : Nat}
    (h : commentLength text = some n) :
    ∃ body back, text = body ++ '*' :: '/' :: back ∧ CommentBody body ∧ n = body.length + 2 := by
  fun_induction commentLength text generalizing n with
  | case1 back => exact ⟨[], back, rfl, commentBody_nil, (Option.some.inj h).symm⟩
  | case2 c more hstar ih =>
    obtain ⟨k, hk, rfl⟩ := Option.map_eq_some_iff.1 h
    obtain ⟨body, back, rfl, hbody, rfl⟩ := ih hk
    refine ⟨c :: body, back, rfl, commentBody_cons.2 ⟨hbody, ?_⟩, rfl⟩
    rintro more hc rfl
    exact hstar _ hc rfl
  | case3 => cases h

theorem not_infix_of_commentLength {text : List Char} (h : commentLength text = none) :
    ¬ ['*', '/'] <:+: text := by
  fun_induction commentLength text with
  | case1 => cases h
  | case2 c more hstar ih =>
    rw [List.infix_cons_iff]
    rintro (⟨back, heq⟩ | hmore)
    · obtain ⟨rfl, rfl⟩ := List.cons.inj heq
      exact hstar back rfl rfl
    · exact ih (Option.map_eq_none_iff.1 h) hmore
  | case3 => decide

end SymbolAtlas
