import SymbolAtlas.Proofs.LexicalRules

/-!
# The longest lexeme at a place

The reader of tokens looks at the first character of a lexeme and then counts how many more
belong to it.  The rules for lexemes say nothing of this: at each place, all of them are
tried on all lengths, and the longest match counts.  Both take the same lexeme, and neither
takes any exactly at a quote or at the opening of a comment that is never closed.

## Main Definitions

* `Munches`: the longest lexeme at the beginning of a text.
* `Unclosed`: a text begins with a quote or with a comment that is never closed.
* `Skipped`: the lexemes that are no tokens.

## Main Statements

* `longest_of_bound`: the longest match, for each way in which a lexeme begins.
* `munches_of_firstLexeme`, `unclosed_of_firstLexeme`: what the reader does at one place.
* `Munches.unique`, `Munches.not_unclosed`: it is the only thing to do there.
-/

namespace SymbolAtlas

/-- The longest lexeme at the beginning of a text, and the rest behind it.  From its opening,
a comment is read on to the first star-slash. -/
inductive Munches : List Char → Stretch → List Char → Prop where
  | lexeme {rule : Rule} {chars rest : List Char} (longest : Longest rule chars rest)
      (whole : rule ≠ .commentOpening) : Munches (chars ++ rest) ⟨rule.kind?, chars⟩ rest
  | comment {body rest : List Char}
      (opening : Longest .commentOpening ['/', '*'] (body ++ '*' :: '/' :: rest))
      (first : CommentBody body) :
      Munches ('/' :: '*' :: (body ++ '*' :: '/' :: rest))
        ⟨none, '/' :: '*' :: (body ++ ['*', '/'])⟩ rest

/-- A text begins with a quote behind which no string ends, or with a comment that is never
closed. -/
inductive Unclosed : List Char → Prop where
  | quote {rest : List Char}
      (endless : ∀ body back, rest = body ++ '"' :: back → ¬ QuotedBody body) :
      Unclosed ('"' :: rest)
  | comment {rest : List Char} (endless : ¬ ['*', '/'] <:+: rest) : Unclosed ('/' :: '*' :: rest)

/-- What is skipped between tokens: blanks, a comment to the end of its line, and a comment
up to the first star-slash. -/
inductive Skipped : List Char → Prop where
  | blanks {chars : List Char} (matched : Rule.blanks.Matches chars) : Skipped chars
  | lineComment {chars : List Char} (matched : Rule.lineComment.Matches chars) : Skipped chars
  | comment {body : List Char} (first : CommentBody body) :
      Skipped ('/' :: '*' :: (body ++ ['*', '/']))

/-! ## Which rules can match -/

namespace Rule

theorem eq_blanks {rule : Rule} (h : .blank ∈ rule.beginnings) : rule = .blanks := by
  revert h
  cases rule with
  | token kind => cases kind <;> decide
  | _ => decide

theorem eq_number {rule : Rule} (h : .digit ∈ rule.beginnings) : rule = .token .number := by
  revert h
  cases rule with
  | token kind => cases kind <;> decide
  | _ => decide

theorem eq_quoted {rule : Rule} (h : .quote ∈ rule.beginnings) : rule = .token .quoted := by
  revert h
  cases rule with
  | token kind => cases kind <;> decide
  | _ => decide

theorem eq_of_slash {rule : Rule} (h : .slash ∈ rule.beginnings) :
    rule = .lineComment ∨ rule = .commentOpening ∨ rule = .token .punctuation := by
  revert h
  cases rule with
  | token kind => cases kind <;> decide
  | _ => decide

/-- What begins like a word is one, and its rule is that of its kind or the one for
identifiers. -/
theorem Matches.word {rule : Rule} {c : Char} {more : List Char} (h : rule.Matches (c :: more))
    (hbeginning : .word ∈ rule.beginnings) :
    (∀ d ∈ more, isWordChar d = true) ∧
      (rule = .token (wordKind (c :: more)) ∨ rule = .token .identifier) := by
  rcases rule with _ | _ | _ | kind
  · simp [beginnings] at hbeginning
  · simp [beginnings] at hbeginning
  · simp [beginnings] at hbeginning
  · cases kind with
    | identifier =>
      obtain ⟨d, others, heq, -, hothers⟩ := h
      obtain ⟨-, rfl⟩ := List.cons.inj heq
      exact ⟨hothers, .inr rfl⟩
    | fromWord | importWord | asWord | typeWord | interfaceWord | serviceWord =>
      obtain ⟨rfl, rfl⟩ := List.cons.inj (Option.some.inj h)
      exact ⟨List.all_eq_true.1 rfl, .inl rfl⟩
    | _ => simp [beginnings] at hbeginning

/-- What begins with any other character is this character, and its rule is that of its
kind. -/
theorem Matches.single {rule : Rule} {c : Char} {more : List Char} (h : rule.Matches (c :: more))
    (hbeginning : .single ∈ rule.beginnings) :
    more = [] ∧ rule = .token (singleKind c) := by
  rcases rule with _ | _ | _ | kind
  · simp [beginnings] at hbeginning
  · simp [beginnings] at hbeginning
  · simp [beginnings] at hbeginning
  · cases kind with
    | punctuation =>
      obtain ⟨d, heq, hd⟩ := h
      obtain ⟨rfl, rfl⟩ := List.cons.inj heq
      rw [(isPunctuation_iff.1 hd).2.2.2.2]
      exact ⟨rfl, rfl⟩
    | openBrace | closeBrace | comma | dot =>
      obtain ⟨rfl, rfl⟩ := List.cons.inj (Option.some.inj h)
      decide
    | _ => simp [beginnings] at hbeginning

/-- What begins with a slash is a comment, the opening of one, or the slash alone. -/
theorem Matches.slash {rule : Rule} {more : List Char} (h : rule.Matches ('/' :: more)) :
    (rule = .lineComment ∧ ∃ body, more = '/' :: body ∧ '\n' ∉ body) ∨
      (rule = .commentOpening ∧ more = ['*']) ∨ (rule = .token .punctuation ∧ more = []) := by
  rcases eq_of_slash h.beginning with rfl | rfl | rfl
  · obtain ⟨body, heq, hbody⟩ := h
    exact .inl ⟨rfl, body, (List.cons.inj heq).2, hbody⟩
  · exact .inr (.inl ⟨rfl, (List.cons.inj h).2⟩)
  · obtain ⟨d, heq, -⟩ := h
    exact .inr (.inr ⟨rfl, (List.cons.inj heq).2⟩)

theorem matches_wordKind {c : Char} {others : List Char} (hc : isWordStart c = true)
    (hothers : ∀ d ∈ others, isWordChar d = true) :
    (token (wordKind (c :: others))).Matches (c :: others) := by
  unfold wordKind
  repeat' split
  case isFalse => exact ⟨c, others, rfl, hc, hothers⟩
  all_goals
    next hword =>
      rw [hword]
      rfl

theorem matches_singleKind {c : Char} (h : beginningOf c = .single) :
    (token (singleKind c)).Matches [c] := by
  by_cases hkind : singleKind c = .punctuation
  · rw [hkind]
    refine ⟨c, rfl, isPunctuation_iff.2 ?_⟩
    unfold beginningOf at h
    grind
  · unfold singleKind at hkind ⊢
    repeat' split
    case isFalse hopen hclose hcomma hdot =>
      simp only [hopen, hclose, hcomma, hdot, if_false, not_true_eq_false] at hkind
    all_goals
      next hc =>
        rw [hc]
        rfl

end Rule

/-! ## The longest match at a place -/

/-- A match with all others bounded by its length is the longest. -/
theorem longest_of_bound {rule : Rule} {c : Char} {rest : List Char} {n : Nat}
    (hmatched : rule.Matches (c :: rest.take n)) (hn : n ≤ rest.length)
    (hbound : ∀ other more, Rule.Matches other (c :: more) → more <+: rest →
      more.length ≤ n ∧ (more.length = n → other = rule ∨ other = .token .identifier)) :
    Longest rule (c :: rest.take n) (rest.drop n) where
  matched := hmatched
  longest other word hword hfront := by
    rw [List.cons_append, List.take_append_drop] at hfront
    cases word with
    | nil => exact Nat.zero_le _
    | cons d more =>
      obtain ⟨rfl, hmore⟩ := List.cons_prefix_cons.1 hfront
      rw [List.length_cons, List.length_cons, List.length_take_of_le hn]
      exact Nat.succ_le_succ (hbound other more hword hmore).1
  preferred other hother :=
    (hbound other _ hother (List.take_prefix n rest)).2 (List.length_take_of_le hn)

section First

variable {c : Char} {rest : List Char}

theorem longest_blanks (h : beginningOf c = .blank) (hc : isBlank c = true) :
    Longest .blanks (c :: rest.take (rest.takeWhile isBlank).length)
      (rest.drop (rest.takeWhile isBlank).length) := by
  apply longest_of_bound
  · rw [take_length_takeWhile]
    exact ⟨List.cons_ne_nil _ _,
      List.forall_mem_cons.2 ⟨hc, List.all_eq_true.1 List.all_takeWhile⟩⟩
  · exact (List.takeWhile_prefix isBlank).length_le
  · intro other more hother hmore
    obtain rfl := Rule.eq_blanks (h ▸ hother.beginning)
    refine ⟨length_le_takeWhile hmore fun d hd => ?_, fun _ => .inl rfl⟩
    exact hother.2 d (List.mem_cons_of_mem c hd)

/-- The longest word is of its kind. -/
theorem longest_word (h : beginningOf c = .word) (hc : isWordStart c = true) :
    Longest (.token (wordKind (c :: rest.takeWhile isWordChar)))
      (c :: rest.take (rest.takeWhile isWordChar).length)
      (rest.drop (rest.takeWhile isWordChar).length) := by
  apply longest_of_bound
  · rw [take_length_takeWhile]
    exact Rule.matches_wordKind hc (List.all_eq_true.1 List.all_takeWhile)
  · exact (List.takeWhile_prefix isWordChar).length_le
  · intro other more hother hmore
    obtain ⟨hword, hrule⟩ := hother.word (h ▸ hother.beginning)
    refine ⟨length_le_takeWhile hmore hword, fun hlength => ?_⟩
    have heq : more = rest.takeWhile isWordChar :=
      List.IsPrefix.eq_of_length (List.prefix_of_prefix_length_le hmore
        (List.takeWhile_prefix isWordChar) (Nat.le_of_eq hlength)) hlength
    rwa [heq] at hrule

theorem longest_number (h : beginningOf c = .digit) (hc : isDigitChar c = true) :
    Longest (.token .number) (c :: rest.take (numberLength rest))
      (rest.drop (numberLength rest)) := by
  apply longest_of_bound
  · obtain ⟨others, fraction, htake, hothers, hfraction⟩ := exists_number rest
    rw [htake]
    exact ⟨c, others, fraction, rfl, hc, hothers, hfraction⟩
  · exact numberLength_le_length rest
  · intro other more hother hmore
    obtain rfl := Rule.eq_number (h ▸ hother.beginning)
    obtain ⟨d, others, fraction, heq, -, hothers, hfraction⟩ := hother
    obtain ⟨rfl, rfl⟩ := List.cons.inj heq
    exact ⟨length_le_numberLength hmore hothers hfraction, fun _ => .inl rfl⟩

theorem longest_quoted {n : Nat} (hn : quotedLength rest = some n) :
    Longest (.token .quoted) ('"' :: rest.take n) (rest.drop n) := by
  apply longest_of_bound
  · obtain ⟨body, back, rfl, hbody, rfl⟩ := exists_body_of_quotedLength hn
    refine ⟨body, ?_, hbody⟩
    rw [List.take_length_add_append]
    rfl
  · exact (quotedLength_take hn []).1
  · intro other more hother hmore
    obtain rfl := Rule.eq_quoted hother.beginning
    obtain ⟨body, heq, hbody⟩ := hother
    obtain ⟨-, rfl⟩ := List.cons.inj heq
    obtain ⟨back, rfl⟩ := hmore
    rw [List.append_assoc, List.singleton_append, quotedLength_of_body hbody] at hn
    refine ⟨Nat.le_of_eq ?_, fun _ => .inl rfl⟩
    rw [← Option.some.inj hn, List.length_append, List.length_singleton]

theorem longest_lineComment (rest : List Char) :
    Longest .lineComment ('/' :: ('/' :: rest).take (('/' :: rest).takeWhile (· ≠ '\n')).length)
      (('/' :: rest).drop (('/' :: rest).takeWhile (· ≠ '\n')).length) := by
  have hrun : ('/' :: rest).takeWhile (· ≠ '\n') = '/' :: rest.takeWhile (· ≠ '\n') :=
    List.takeWhile_cons_of_pos (by decide)
  apply longest_of_bound
  · rw [take_length_takeWhile, hrun]
    exact ⟨_, rfl, fun hfeed => by simpa using List.all_eq_true.1 List.all_takeWhile _ hfeed⟩
  · exact (List.takeWhile_prefix _).length_le
  · intro other more hother hmore
    rcases hother.slash with ⟨rfl, body, rfl, hbody⟩ | ⟨rfl, rfl⟩ | ⟨rfl, rfl⟩
    · refine ⟨length_le_takeWhile hmore ?_, fun _ => .inl rfl⟩
      intro d hd
      rcases List.mem_cons.1 hd with rfl | hd
      · decide
      · exact decide_eq_true fun hfeed => hbody (hfeed ▸ hd)
    · exact absurd (List.cons_prefix_cons.1 hmore).1 (by decide)
    · refine ⟨Nat.zero_le _, fun hlength => ?_⟩
      rw [hrun] at hlength
      cases hlength

theorem longest_commentOpening (rest : List Char) : Longest .commentOpening ['/', '*'] rest := by
  show Longest .commentOpening ('/' :: ('*' :: rest).take 1) (('*' :: rest).drop 1)
  apply longest_of_bound
  · rfl
  · exact Nat.succ_le_succ (Nat.zero_le _)
  · intro other more hother hmore
    rcases hother.slash with ⟨rfl, body, rfl, -⟩ | ⟨rfl, rfl⟩ | ⟨rfl, rfl⟩
    · exact absurd (List.cons_prefix_cons.1 hmore).1 (by decide)
    · exact ⟨Nat.le_refl _, fun _ => .inl rfl⟩
    · exact ⟨Nat.zero_le _, nofun⟩

theorem longest_slash (hslash : ∀ more, rest ≠ '/' :: more) (hstar : ∀ more, rest ≠ '*' :: more) :
    Longest (.token .punctuation) ['/'] rest := by
  show Longest (.token .punctuation) ('/' :: rest.take 0) (rest.drop 0)
  apply longest_of_bound
  · exact ⟨'/', rfl, by decide⟩
  · exact Nat.zero_le _
  · intro other more hother hmore
    rcases hother.slash with ⟨rfl, body, rfl, -⟩ | ⟨rfl, rfl⟩ | ⟨rfl, rfl⟩
    · obtain ⟨back, rfl⟩ := hmore
      exact absurd rfl (hslash _)
    · obtain ⟨back, rfl⟩ := hmore
      exact absurd rfl (hstar _)
    · exact ⟨Nat.le_refl _, fun _ => .inl rfl⟩

theorem longest_single (h : beginningOf c = .single) :
    Longest (.token (singleKind c)) [c] rest := by
  show Longest (.token (singleKind c)) (c :: rest.take 0) (rest.drop 0)
  apply longest_of_bound
  · exact Rule.matches_singleKind h
  · exact Nat.zero_le _
  · intro other more hother _
    obtain ⟨rfl, hrule⟩ := hother.single (h ▸ hother.beginning)
    exact ⟨Nat.le_refl _, fun _ => .inl hrule⟩

end First

/-! ## One lexeme -/

theorem Longest.munches {rule : Rule} {c : Char} {rest : List Char} {n : Nat}
    (h : Longest rule (c :: rest.take n) (rest.drop n)) (hwhole : rule ≠ .commentOpening) :
    Munches (c :: rest) ⟨rule.kind?, c :: rest.take n⟩ (rest.drop n) := by
  have hmunches := Munches.lexeme h hwhole
  rwa [List.cons_append, List.take_append_drop] at hmunches

theorem munches_comment {body : List Char} (h : CommentBody body) (back : List Char) :
    Munches ('/' :: '*' :: (body ++ '*' :: '/' :: back))
      ⟨none, '/' :: ('*' :: (body ++ '*' :: '/' :: back)).take (body.length + 2 + 1)⟩
      (('*' :: (body ++ '*' :: '/' :: back)).drop (body.length + 2 + 1)) := by
  rw [List.take_succ_cons, List.take_length_add_append, List.drop_succ_cons,
    List.drop_length_add_append]
  exact .comment (longest_commentOpening _) h

/-- The reader takes the longest lexeme. -/
theorem munches_of_firstLexeme {c : Char} {rest : List Char} {lexeme : Lexeme}
    (h : firstLexeme c rest = some lexeme) :
    Munches (c :: rest) ⟨lexeme.kind, c :: rest.take lexeme.further⟩
      (rest.drop lexeme.further) := by
  unfold firstLexeme at h
  split at h
  · next hblank =>
    obtain rfl := Option.some.inj h
    exact (longest_blanks (if_pos hblank) hblank).munches (by simp)
  next hblank =>
  split at h
  · next hstart =>
    obtain rfl := Option.some.inj h
    have hword : beginningOf c = .word := by rw [beginningOf, if_neg hblank, if_pos hstart]
    exact (longest_word hword hstart).munches (by simp)
  next hstart =>
  split at h
  · next hdigit =>
    obtain rfl := Option.some.inj h
    have hnumber : beginningOf c = .digit := by
      rw [beginningOf, if_neg hblank, if_neg hstart, if_pos hdigit]
    exact (longest_number hnumber hdigit).munches (by simp)
  next hdigit =>
  split at h
  · next hquote =>
    obtain ⟨n, hn, rfl⟩ := Option.map_eq_some_iff.1 h
    subst hquote
    exact (longest_quoted hn).munches (by simp)
  next hquote =>
  split at h
  · next hslash =>
    subst hslash
    split at h
    · next more =>
      obtain rfl := Option.some.inj h
      exact (longest_lineComment more).munches (by simp)
    · next more =>
      obtain ⟨n, hn, rfl⟩ := Option.map_eq_some_iff.1 h
      obtain ⟨body, back, rfl, hbody, rfl⟩ := exists_body_of_commentLength hn
      exact munches_comment hbody back
    · next hslash hstar =>
      obtain rfl := Option.some.inj h
      exact .lexeme (longest_slash hslash hstar) (by simp)
  · next hslash =>
    obtain rfl := Option.some.inj h
    have hsingle : beginningOf c = .single := by
      rw [beginningOf, if_neg hblank, if_neg hstart, if_neg hdigit, if_neg hquote, if_neg hslash]
    exact .lexeme (longest_single hsingle) (by simp)

/-- The reader halts only at what is never closed. -/
theorem unclosed_of_firstLexeme {c : Char} {rest : List Char} (h : firstLexeme c rest = none) :
    Unclosed (c :: rest) := by
  unfold firstLexeme at h
  repeat' split at h
  case h_2 hslash _ body =>
    subst hslash
    exact .comment (not_infix_of_commentLength (Option.map_eq_none_iff.1 h))
  case isFalse.isFalse.isFalse.isTrue hquote =>
    subst hquote
    refine .quote fun body back heq hbody => ?_
    rw [heq, quotedLength_of_body hbody] at h
    cases h
  all_goals cases h

theorem firstLexeme_of_unclosed {c : Char} {rest : List Char} (h : Unclosed (c :: rest)) :
    firstLexeme c rest = none := by
  cases h with
  | quote endless =>
    show (quotedLength rest).map _ = none
    rw [Option.map_eq_none_iff, Option.eq_none_iff_forall_not_mem]
    intro n hn
    obtain ⟨body, back, heq, hbody, -⟩ := exists_body_of_quotedLength hn
    exact endless body back heq hbody
  | @comment rest endless =>
    rw [firstLexeme_slash]
    show (commentLength rest).map _ = none
    rw [Option.map_eq_none_iff, Option.eq_none_iff_forall_not_mem]
    intro n hn
    obtain ⟨body, back, heq, -, -⟩ := exists_body_of_commentLength hn
    exact endless ⟨body, back, by rw [heq, List.append_assoc]; rfl⟩

namespace Munches

variable {text rest rest' : List Char} {s s' : Stretch}

/-- What is never closed has no longest lexeme. -/
theorem not_unclosed (h : Munches text s rest) : ¬ Unclosed text := by
  intro hunclosed
  cases h with
  | @lexeme rule chars rest longest whole =>
    generalize htext : chars ++ rest = text at hunclosed
    cases hunclosed with
    | @quote more endless =>
      obtain ⟨tail, rfl, rfl⟩ : ∃ tail, chars = '"' :: tail ∧ more = tail ++ rest := by
        cases chars with
        | nil => exact absurd rfl (Rule.ne_nil_of_matches longest.matched)
        | cons c tail =>
          obtain ⟨rfl, rfl⟩ := List.cons.inj htext
          exact ⟨tail, rfl, rfl⟩
      obtain rfl := Rule.eq_quoted longest.matched.beginning
      obtain ⟨body, heq, hbody⟩ := longest.matched
      obtain ⟨-, rfl⟩ := List.cons.inj heq
      exact endless body rest (List.append_assoc _ _ _) hbody
    | comment endless =>
      exact whole (longest.unique (longest_commentOpening _) htext).1
  | @comment body rest opening first =>
    cases hunclosed with
    | comment endless => exact endless ⟨body, rest, List.append_assoc _ _ _⟩

/-- The longest lexeme is the only one. -/
theorem unique (h : Munches text s rest) (h' : Munches text s' rest') : s = s' ∧ rest = rest' := by
  cases h with
  | @lexeme rule chars rest longest whole =>
    generalize htext : chars ++ rest = text at h'
    cases h' with
    | lexeme longest' whole' =>
      obtain ⟨rfl, rfl, rfl⟩ := longest.unique longest' htext
      exact ⟨rfl, rfl⟩
    | comment opening' _ => exact absurd (longest.unique opening' htext).1 whole
  | @comment body rest opening first =>
    generalize htext : '/' :: '*' :: (body ++ '*' :: '/' :: rest) = text at h'
    cases h' with
    | lexeme longest' whole' => exact absurd (opening.unique longest' htext).1.symm whole'
    | @comment body' rest' opening' first' =>
      obtain ⟨-, hrest⟩ := List.cons.inj htext
      obtain ⟨-, hrest⟩ := List.cons.inj hrest
      have hlength := commentLength_of_body first rest
      rw [hrest, commentLength_of_body first' rest'] at hlength
      obtain ⟨rfl, hback⟩ := List.append_inj hrest (by simpa using hlength.symm)
      obtain rfl := (List.cons.inj (List.cons.inj hback).2).2
      exact ⟨rfl, rfl⟩

theorem append_eq (h : Munches text s rest) : s.chars ++ rest = text := by
  cases h with
  | lexeme longest whole => rfl
  | @comment body rest opening first =>
    show '/' :: '*' :: (body ++ ['*', '/'] ++ rest) = _
    rw [List.append_assoc]
    rfl

/-- A stretch that is a token is the longest match of the rule for its kind. -/
theorem longest (h : Munches text s rest) {kind : Token.Kind} (hkind : s.kind = some kind) :
    Longest (.token kind) s.chars rest := by
  cases h with
  | @lexeme rule chars rest longest whole =>
    cases rule with
    | token other => rwa [← Option.some.inj hkind]
    | _ => cases hkind
  | comment => cases hkind

/-- A stretch that is no token is one of those that are skipped. -/
theorem skipped (h : Munches text s rest) (hkind : s.kind = none) : Skipped s.chars := by
  cases h with
  | @lexeme rule chars rest longest whole =>
    cases rule with
    | blanks => exact .blanks longest.matched
    | lineComment => exact .lineComment longest.matched
    | commentOpening => exact absurd rfl whole
    | token other => cases hkind
  | comment opening first => exact .comment first

/-- The longest lexeme is the one that the reader takes. -/
theorem exists_firstLexeme (h : Munches text s rest) :
    ∃ c tail lexeme, text = c :: tail ∧ firstLexeme c tail = some lexeme ∧
      s = ⟨lexeme.kind, c :: tail.take lexeme.further⟩ ∧ rest = tail.drop lexeme.further := by
  have hne : text ≠ [] := by
    cases h with
    | lexeme longest whole =>
      exact List.append_ne_nil_of_left_ne_nil (Rule.ne_nil_of_matches longest.matched) _
    | comment => exact List.cons_ne_nil _ _
  obtain ⟨c, tail, rfl⟩ := List.exists_cons_of_ne_nil hne
  cases hfirst : firstLexeme c tail with
  | none => exact absurd (unclosed_of_firstLexeme hfirst) h.not_unclosed
  | some lexeme =>
    obtain ⟨hs, hrest⟩ := h.unique (munches_of_firstLexeme hfirst)
    exact ⟨c, tail, lexeme, rfl, hfirst, hs, hrest⟩

end Munches

end SymbolAtlas
