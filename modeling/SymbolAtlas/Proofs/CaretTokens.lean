import SymbolAtlas.Proofs.MaximalWords
import SymbolAtlas.Proofs.Offsets
import SymbolAtlas.Proofs.ReferenceIndex

/-!
# Carets at identifiers

At a caret a word is found by its characters alone, while identifiers are read as lexemes.
Both take word characters for as long as there are some, so they end at the same place.  They
begin at the same place too, unless a word character stands in front of the identifier, and
only one lexeme can leave it there: a number ends with the digits of its fraction, whatever
follows them.  Then the word at the caret has these digits in front.

## Main Definitions

* `EndsFraction`: a number with a fraction ends at a place.

## Main Statements

* `wordAt_run`: a run of word characters in a text is found at each of its columns.
* `Munches.end_of_lexeme`: how a lexeme ends that a word follows.
* `wordAt_identifier`: what is found at the columns of an identifier.
-/

namespace SymbolAtlas

/-! ## Runs of word characters in a text -/

theorem getLast?_of_lastLine {before : List Char} {c : Char}
    (h : (lastLine before).getLast? = some c) : before.getLast? = some c := by
  obtain ⟨rest, hrest⟩ := List.takeWhile_prefix (l := before.reverse) (· ≠ '\n')
  rw [lastLine, List.getLast?_reverse] at h
  rw [← List.head?_reverse, ← hrest, List.head?_append, h]
  rfl

theorem head?_of_firstLine {after : List Char} {c : Char}
    (h : ((linesOf after).headD []).head? = some c) : after.head? = some c := by
  cases after with
  | nil => cases h
  | cons d rest =>
    by_cases hlf : d = '\n'
    · subst hlf
      rw [linesOf] at h
      cases h
    · by_cases hcr : ∀ more, d = '\r' → rest ≠ '\n' :: more
      · rwa [linesOf_cons hlf hcr] at h
      · obtain ⟨more, rfl, rfl⟩ : ∃ more, d = '\r' ∧ rest = '\n' :: more := by
          simpa using hcr
        rw [linesOf] at h
        cases h

/-- A run of word characters in a text, between characters that are none, is found at each of
its columns. -/
theorem wordAt_run {before run after : List Char} (hne : run ≠ [])
    (hrun : ∀ c ∈ run, isWordChar c = true)
    (hbefore : ∀ c, before.getLast? = some c → isWordChar c = false)
    (hafter : ∀ c, after.head? = some c → isWordChar c = false) {column : Nat}
    (hstart : (Position.behind before).column ≤ column)
    (hstop : column ≤ (Position.behind before).column + run.length) :
    wordAt (String.ofList (before ++ (run ++ after))) (Position.behind before).line column =
      .ok ⟨String.ofList run, Span.ofName (.behind before) (String.ofList run)⟩ := by
  have hclean : IsClean run := fun c hc => ne_lineEnd_of_isWordChar (hrun c hc)
  have hcolumn : (lastLine before).length = (Position.behind before).column := List.length_reverse
  have hfirst : ∀ more, run ++ after ≠ '\n' :: more := by
    obtain ⟨c, rest, rfl⟩ := List.exists_cons_of_ne_nil hne
    exact fun more heq => (hclean c List.mem_cons_self).1 (List.cons.inj heq).1
  have hline : line? (String.ofList (before ++ (run ++ after))) (Position.behind before).line =
      some (lastLine before ++ (run ++ (linesOf after).headD [])) := by
    rw [line?, String.toList_ofList]
    show (linesOf _)[before.count '\n']? = _
    rw [linesOf_at before (List.append_ne_nil_of_left_ne_nil hne after) hfirst,
      linesOf_word hne hclean, List.headD_cons]
  refine wordAt_eq_ok_iff_maximalAt.2 ⟨_, hline, ?_⟩
  rw [Span.ofName, String.length_ofList, ← hcolumn]
  rw [← hcolumn] at hstart hstop
  exact maximalAt_of_cut hrun (fun c hc => hbefore c (getLast?_of_lastLine hc))
    (fun c hc => hafter c (head?_of_firstLine hc)) hstart hstop

/-! ## How lexemes end -/

theorem isWordChar_of_isBlank {c : Char} (h : isBlank c = true) : isWordChar c = false := by
  rw [isWordChar_eq, Bool.or_eq_false_iff, ← Bool.not_eq_true, ← Bool.not_eq_true]
  refine ⟨fun hstart => ?_, fun hdigit => ?_⟩
  · rw [isBlank_of_isWordStart hstart] at h
    cases h
  · rw [isBlank_of_isDigitChar hdigit] at h
    cases h

/-- No rule matches a longest match with the next character. -/
theorem Longest.not_matches_next {rule : Rule} {chars rest : List Char} {c : Char}
    (h : Longest rule chars (c :: rest)) (other : Rule) : ¬ other.Matches (chars ++ [c]) := by
  intro hmatched
  have hle := h.longest other _ hmatched ⟨rest, by rw [List.append_assoc]; rfl⟩
  rw [List.length_append, List.length_singleton] at hle
  omega

theorem isWordStart_of_beginningOf {c : Char} (h : beginningOf c = .word) :
    isWordStart c = true := by
  unfold beginningOf at h
  grind

theorem isWordChar_of_beginningOf {c : Char} (h : beginningOf c = .single) :
    isWordChar c = false := by
  unfold beginningOf at h
  grind [isWordChar_eq]

/-- A longest match in front of a word ends with a character that is no part of a word, unless
it is a number with a fraction. -/
theorem Longest.end_of_match {rule : Rule} {chars rest : List Char} {c : Char}
    (h : Longest rule chars (c :: rest)) (hc : isWordStart c = true) :
    (∃ d, chars.getLast? = some d ∧ isWordChar d = false) ∨
      rule = .token .number ∧ ∃ whole digits, chars = whole ++ '.' :: digits := by
  have hword := isWordChar_of_isWordStart hc
  obtain ⟨d, more, rfl⟩ := List.exists_cons_of_ne_nil (Rule.ne_nil_of_matches h.matched)
  have hbeginning := h.matched.beginning
  cases hd : beginningOf d with
  | blank =>
    obtain rfl := Rule.eq_blanks (hd ▸ hbeginning)
    obtain ⟨hne, hblank⟩ := h.matched
    refine .inl ⟨_, List.getLast?_eq_some_getLast hne, ?_⟩
    exact isWordChar_of_isBlank (hblank _ (List.getLast_mem hne))
  | word =>
    -- a word would go on
    obtain ⟨hmore, -⟩ := h.matched.word (hd ▸ hbeginning)
    refine absurd ⟨d, more ++ [c], rfl, isWordStart_of_beginningOf hd, ?_⟩
      (h.not_matches_next (.token .identifier))
    exact List.forall_mem_append.2 ⟨hmore, List.forall_mem_singleton.2 hword⟩
  | digit =>
    obtain rfl := Rule.eq_number (hd ▸ hbeginning)
    obtain ⟨first, others, fraction, heq, hfirst, hothers, hfraction⟩ := h.matched
    rcases hfraction with rfl | ⟨digits, rfl, -, -⟩
    · -- so would a number without a fraction
      refine absurd ⟨first, others ++ [c], [], ?_, hfirst, ?_, .inl rfl⟩
        (h.not_matches_next (.token .number))
      · rw [heq, List.append_nil, List.append_nil, List.cons_append]
      · exact List.forall_mem_append.2 ⟨hothers, List.forall_mem_singleton.2 hword⟩
    · exact .inr ⟨rfl, first :: others, digits, heq⟩
  | quote =>
    obtain rfl := Rule.eq_quoted (hd ▸ hbeginning)
    obtain ⟨body, heq, -⟩ := h.matched
    exact .inl ⟨'"', by rw [heq, ← List.cons_append, List.getLast?_concat], rfl⟩
  | slash =>
    obtain rfl : d = '/' := by
      unfold beginningOf at hd
      grind
    rcases h.matched.slash with ⟨rfl, body, rfl, hbody⟩ | ⟨-, rfl⟩ | ⟨-, rfl⟩
    · -- and a comment in its line
      refine absurd ⟨body ++ [c], rfl, ?_⟩ (h.not_matches_next .lineComment)
      rw [List.mem_append, List.mem_singleton]
      rintro (hfeed | rfl)
      · exact hbody hfeed
      · cases hc
    · exact .inl ⟨'*', rfl, rfl⟩
    · exact .inl ⟨'/', rfl, rfl⟩
  | single =>
    obtain ⟨rfl, -⟩ := h.matched.single (hd ▸ hbeginning)
    exact .inl ⟨d, rfl, isWordChar_of_beginningOf hd⟩

/-- A lexeme in front of a word ends with a character that is no part of a word, unless it is
a number with a fraction. -/
theorem Munches.end_of_lexeme {text rest : List Char} {s : Stretch} {c : Char}
    (h : Munches text s (c :: rest)) (hc : isWordStart c = true) :
    (∃ d, s.chars.getLast? = some d ∧ isWordChar d = false) ∨
      s.kind = some .number ∧ ∃ whole digits, s.chars = whole ++ '.' :: digits := by
  cases h with
  | lexeme longest whole =>
    rcases longest.end_of_match hc with hend | ⟨rfl, hfraction⟩
    · exact .inl hend
    · exact .inr ⟨rfl, hfraction⟩
  | @comment body rest opening first =>
    refine .inl ⟨'/', ?_, rfl⟩
    show ('/' :: '*' :: (body ++ ['*', '/'])).getLast? = some '/'
    rw [← List.cons_append, ← List.cons_append, List.getLast?_append]
    rfl

/-! ## Identifiers -/

/-- A number with a fraction ends at a place, and these are the digits of its fraction. -/
def EndsFraction (text : String) (place : Position) (digits : String) : Prop :=
  ∃ tokens, tokenize text = .ok tokens ∧ ∃ t ∈ tokens, t.kind = .number ∧
    t.stop.position = place ∧ ∃ whole, t.lexeme = whole ++ "." ++ digits

theorem digits_of_number {whole digits : List Char}
    (h : (Rule.token .number).Matches (whole ++ '.' :: digits)) :
    digits ≠ [] ∧ ∀ d ∈ digits, isWordChar d = true := by
  obtain ⟨first, others, fraction, heq, hfirst, hothers, hfraction⟩ := h
  have hword : ∀ c ∈ first :: others, isWordChar c = true := by
    refine List.forall_mem_cons.2 ⟨?_, hothers⟩
    rw [isWordChar_eq, hfirst, Bool.or_true]
  have hdot : '.' ∉ first :: others := fun hmem => by cases hword _ hmem
  rw [← List.cons_append] at heq
  rcases hfraction with rfl | ⟨digits', rfl, hne, hdigits⟩
  · refine absurd ?_ hdot
    rw [List.append_nil] at heq
    rw [← heq]
    exact List.mem_append_right _ List.mem_cons_self
  · -- the only dot is the one of the fraction
    have hdot' : '.' ∉ digits' := fun hmem => by cases hdigits _ hmem
    obtain ⟨-, -, rfl⟩ := (List.append_cons_inj_of_notMem hdot hdot').1 heq.symm
    refine ⟨hne, fun d hd => ?_⟩
    rw [isWordChar_eq, hdigits d hd, Bool.or_true]

/-- Along a word the line stays and the column grows by its length. -/
theorem Position.behind_append {front word : List Char} (h : IsClean word) :
    Position.behind (front ++ word) =
      ⟨(Position.behind front).line, (Position.behind front).column + word.length⟩ := by
  obtain ⟨hline, hcolumn⟩ := Cursor.advanceAll_of_clean h (Cursor.start.advanceAll front)
  rw [← Cursor.position_advanceAll, ← Cursor.position_advanceAll, Cursor.advanceAll_append,
    Cursor.position, hline, hcolumn]
  rfl

/-- Two places of a text with the same position are the same. -/
theorem eq_of_behind_eq {front front' back back' : List Char}
    (h : front ++ back = front' ++ back') (hplace : Position.behind front = .behind front') :
    front = front' := by
  have hbefore : ∀ {lead more : List Char}, Position.behind lead = .behind (lead ++ more) →
      more = [] := by
    intro lead more heq
    by_contra hne
    have hlt := Position.behind_before lead hne
    rw [← heq, Position.Before] at hlt
    omega
  rcases List.append_eq_append_iff.1 h with ⟨more, rfl, -⟩ | ⟨more, rfl, -⟩
  · rw [hbefore hplace, List.append_nil]
  · rw [hbefore hplace.symm, List.append_nil]

section Identifiers

variable {text : String} {tokens : List Token} {t : Token}

/-- At the columns of a token that is a word, the word is found with all word characters in
front of it. -/
theorem wordAt_token {front run back : List Char}
    (htext : text.toList = front ++ (run ++ (t.lexeme.toList ++ back)))
    (hplace : t.position = .behind (front ++ run)) (hne : t.lexeme.toList ≠ [])
    (hrun : ∀ c ∈ run, isWordChar c = true) (hlexeme : ∀ c ∈ t.lexeme.toList, isWordChar c = true)
    (hfront : ∀ c, front.getLast? = some c → isWordChar c = false)
    (hback : ∀ c, back.head? = some c → isWordChar c = false) {column : Nat}
    (hstart : t.identifier.span.start ≤ column) (hstop : column ≤ t.identifier.span.stop) :
    wordAt text t.identifier.span.line column =
      .ok ⟨String.ofList run ++ t.lexeme, ⟨t.identifier.span.line,
        t.identifier.span.start - run.length, t.identifier.span.stop⟩⟩ := by
  have hclean : IsClean run := fun c hc => ne_lineEnd_of_isWordChar (hrun c hc)
  rw [Position.behind_append hclean] at hplace
  simp only [Token.identifier, Span.ofName, hplace] at hstart hstop ⊢
  have hlength : (run ++ t.lexeme.toList).length = run.length + t.lexeme.length := by
    rw [List.length_append, String.length_toList]
  have hfound := wordAt_run (List.append_ne_nil_of_right_ne_nil run hne)
    (List.forall_mem_append.2 ⟨hrun, hlexeme⟩) hfront hback
    (Nat.le_trans (Nat.le_add_right _ _) hstart) (by rwa [hlength, ← Nat.add_assoc])
  rw [List.append_assoc, ← htext, String.ofList_toList, String.ofList_append,
    String.ofList_toList] at hfound
  rw [hfound, Span.ofName, ← String.length_toList, String.toList_append, String.toList_ofList,
    hlength, Nat.add_sub_cancel, Nat.add_assoc]

theorem toList_append_dot (whole digits : String) :
    (whole ++ "." ++ digits).toList = whole.toList ++ '.' :: digits.toList := by
  rw [String.toList_append, String.toList_append, List.append_assoc]
  rfl

namespace EndsFraction

variable {digits : String}

theorem wordChars {place : Position} (h : EndsFraction text place digits) :
    digits.toList ≠ [] ∧ ∀ d ∈ digits.toList, isWordChar d = true := by
  obtain ⟨tokens, htokens, u, hu, hkind, -, whole, hlexeme⟩ := h
  have hmatched := matches_of_mem_tokenize htokens hu
  rw [hkind, hlexeme, toList_append_dot] at hmatched
  exact digits_of_number hmatched

/-- The number stands right in front of the place. -/
theorem exists_whole {front back : List Char} (h : EndsFraction text (.behind front) digits)
    (htext : text.toList = front ++ back) : ∃ whole, front = whole ++ ['.'] ++ digits.toList := by
  obtain ⟨tokens, htokens, u, hu, -, hplace, whole, hlexeme⟩ := h
  obtain ⟨lead, rest, hcut, -, hstart⟩ := exists_front_of_mem_tokenize htokens hu
  have hsame : (lead.toList ++ u.lexeme.toList) ++ rest.toList = front ++ back := by
    rw [← htext, hcut, String.toList_append, String.toList_append, List.append_assoc]
  have hfront : lead.toList ++ u.lexeme.toList = front := by
    refine eq_of_behind_eq hsame ?_
    rw [← hplace, Token.stop, hstart, ← Cursor.advanceAll_append, Cursor.position_advanceAll]
  refine ⟨lead.toList ++ whole.toList, ?_⟩
  rw [← hfront, hlexeme, toList_append_dot, List.append_assoc, List.append_assoc]
  rfl

end EndsFraction

/-- Nothing behind an identifier continues the word. -/
theorem ReadsTo.head?_behind {front back : List Stretch} {s : Stretch} {chars : List Char}
    (h : ReadsTo chars (front ++ s :: back) []) (hs : s.kind = some .identifier) {c : Char}
    (hc : (joined back).head? = some c) : isWordChar c = false := by
  obtain ⟨rest, hrest⟩ : ∃ rest, joined back = c :: rest := ⟨_, (List.cons_head?_tail hc).symm⟩
  have hlongest := h.munches.longest hs
  obtain ⟨d, others, hchars, hd, hothers⟩ := hlongest.matched
  rw [hrest] at hlongest
  rw [← Bool.not_eq_true]
  intro hcontinues
  refine hlongest.not_matches_next (.token .identifier) ⟨d, others ++ [c], ?_, hd, ?_⟩
  · rw [hchars, List.cons_append]
  · exact List.forall_mem_append.2 ⟨hothers, List.forall_mem_singleton.2 hcontinues⟩

/-- Nothing in front of a word continues it, unless that is a number with a fraction. -/
theorem ReadsTo.getLast?_front {front back : List Stretch} {s : Stretch} {c : Char}
    {others : List Char} (h : ReadsTo text.toList (front ++ s :: back) [])
    (hs : s.chars = c :: others) (hc : isWordStart c = true) :
    (∀ d, (joined front).getLast? = some d → isWordChar d = false) ∨
      ∃ digits, EndsFraction text (.behind (joined front)) digits := by
  rcases front.eq_nil_or_concat with rfl | ⟨lead, u, hfront⟩
  · exact .inl nofun
  rw [List.concat_eq_append] at hfront
  have hjoined : joined front = joined lead ++ u.chars := by
    rw [hfront, joined, List.flatMap_append]
    exact congrArg _ (List.append_nil _)
  rw [hfront, List.append_assoc] at h
  have hmunches : Munches _ u (joined (s :: back)) := h.munches
  rw [joined_cons, hs, List.cons_append] at hmunches
  rcases hmunches.end_of_lexeme hc with ⟨d, hd, houtside⟩ | ⟨hkind, whole, digits, hchars⟩
  · refine .inl fun d' hd' => ?_
    rw [hjoined, List.getLast?_append, hd] at hd'
    exact Option.some.inj hd' ▸ houtside
  · refine .inr ⟨String.ofList digits, _, tokenize_eq_ok_iff.2 ⟨_, readsTo_nil_iff.1 h, rfl⟩,
      ⟨.number, String.ofList u.chars, Cursor.start.advanceAll (joined lead)⟩, ?_, rfl, ?_,
      String.ofList whole, ?_⟩
    · rw [tokensOf_append]
      refine List.mem_append_right _ (List.mem_append_left _ ?_)
      rw [Stretch.tokens, hkind]
      exact List.mem_singleton.2 rfl
    · rw [Token.stop, String.toList_ofList, ← Cursor.advanceAll_append, ← hjoined,
        Cursor.position_advanceAll]
    · rw [hchars, String.ofList_append, String.append_assoc, String.ofList_cons]
      rfl

/-- What stands next to an identifier. -/
theorem exists_neighbours (h : tokenize text = .ok tokens) (ht : t ∈ tokens)
    (hkind : t.kind = .identifier) :
    ∃ front back, text.toList = front ++ (t.lexeme.toList ++ back) ∧ t.position = .behind front ∧
      (∀ c, back.head? = some c → isWordChar c = false) ∧
      ((∀ c, front.getLast? = some c → isWordChar c = false) ∨
        ∃ digits, EndsFraction text (.behind front) digits) := by
  have hword := isIdentifier_of_mem_tokenize h ht hkind
  obtain ⟨stretches, hlexed, rfl⟩ := tokenize_eq_ok_iff.1 h
  obtain ⟨front, s, back, rfl, heq, hs⟩ := exists_stretch_of_mem_tokensOf ht
  have hreads := readsTo_nil_iff.2 hlexed
  have hlexeme : t.lexeme.toList = s.chars := by rw [heq, String.toList_ofList]
  rw [hlexeme] at hword ⊢
  obtain ⟨c, others, hchars⟩ := List.exists_cons_of_ne_nil hword.ne_nil
  have hc : isWordStart c = true := by
    rw [hchars] at hword
    exact hword.1
  refine ⟨joined front, joined back, ?_, ?_, fun d hd => ?_, hreads.getLast?_front hchars hc⟩
  · rw [← joined_append_cons, hlexed.joined_eq]
  · rw [heq]
    exact Cursor.position_advanceAll _
  · exact hreads.head?_behind (hkind ▸ hs) hd

variable {column : Nat} (h : tokenize text = .ok tokens) (ht : t ∈ tokens)
  (hkind : t.kind = .identifier) (hstart : t.identifier.span.start ≤ column)
  (hstop : column ≤ t.identifier.span.stop)

include h ht hkind hstart hstop

theorem wordAt_of_not_endsFraction (hnone : ¬ ∃ digits, EndsFraction text t.position digits) :
    wordAt text t.identifier.span.line column = .ok ⟨t.lexeme, t.identifier.span⟩ := by
  obtain ⟨front, back, htext, hplace, hback, hfront⟩ := exists_neighbours h ht hkind
  have hword := isIdentifier_of_mem_tokenize h ht hkind
  have hempty : ∀ c ∈ ([] : List Char), isWordChar c = true := nofun
  rw [hplace] at hnone
  have hfound := wordAt_token htext (by rw [List.append_nil, hplace]) hword.ne_nil hempty
    hword.forall_isWordChar (hfront.resolve_right hnone) hback hstart hstop
  rw [hfound, String.ofList_nil, String.empty_append]
  rfl

theorem wordAt_of_endsFraction {digits : String} (hdigits : EndsFraction text t.position digits) :
    wordAt text t.identifier.span.line column =
      .ok ⟨digits ++ t.lexeme, ⟨t.identifier.span.line,
        t.identifier.span.start - digits.length, t.identifier.span.stop⟩⟩ := by
  obtain ⟨front, back, htext, hplace, hback, -⟩ := exists_neighbours h ht hkind
  have hword := isIdentifier_of_mem_tokenize h ht hkind
  rw [hplace] at hdigits
  obtain ⟨-, hrun⟩ := hdigits.wordChars
  obtain ⟨whole, rfl⟩ := hdigits.exists_whole htext
  rw [List.append_assoc] at htext
  -- the dot of the fraction is no part of the word
  have hdot : ∀ c, (whole ++ ['.']).getLast? = some c → isWordChar c = false := by
    intro c hc
    rw [List.getLast?_concat] at hc
    exact Option.some.inj hc ▸ rfl
  have hfound := wordAt_token htext hplace hword.ne_nil hrun hword.forall_isWordChar hdot hback
    hstart hstop
  rwa [String.ofList_toList, String.length_toList] at hfound

end Identifiers

/-- At the columns of an identifier the identifier is found, unless a number with a fraction
ends where it begins; then the digits of the fraction are found with it. -/
theorem wordAt_identifier {text : String} {o : Outline} (h : Outline.parse text = .ok o)
    {i : Identifier} (hi : i ∈ o.identifiers) {column : Nat} (hstart : i.span.start ≤ column)
    (hstop : column ≤ i.span.stop) :
    (wordAt text i.span.line column = .ok ⟨i.text, i.span⟩ ↔
        ¬ ∃ digits, EndsFraction text i.span.position digits) ∧
      ∀ digits, EndsFraction text i.span.position digits →
        wordAt text i.span.line column =
          .ok ⟨digits ++ i.text, ⟨i.span.line, i.span.start - digits.length, i.span.stop⟩⟩ := by
  obtain ⟨tokens, phrases, htokens, hphrases, rfl⟩ := parse_eq_ok_iff.1 h
  rw [identifiers_eq_filter htokens hphrases] at hi
  obtain ⟨t, ht, rfl⟩ := List.mem_map.1 hi
  obtain ⟨hmem, hfilter⟩ := List.mem_filter.1 ht
  have hkind : t.kind = .identifier := (of_decide_eq_true hfilter).1
  refine ⟨⟨?_, ?_⟩, ?_⟩
  · rintro hfound ⟨digits, hdigits⟩
    rw [wordAt_of_endsFraction htokens hmem hkind hstart hstop hdigits] at hfound
    have htext : digits ++ t.lexeme = t.lexeme := congrArg Word.text (Except.ok.inj hfound)
    have hchars : digits.toList ++ t.lexeme.toList = t.lexeme.toList := by
      rw [← String.toList_append, htext]
    exact hdigits.wordChars.1 (List.append_left_eq_self.1 hchars)
  · exact wordAt_of_not_endsFraction htokens hmem hkind hstart hstop
  · exact fun digits => wordAt_of_endsFraction htokens hmem hkind hstart hstop

/-- A number with a fraction and an exponent, which are read as a number and an identifier. -/
def exponentText : String := "x = 1.5e3"

/-- The outline of the text. -/
def exponentOutline : Outline := ⟨[], [], [⟨"x", ⟨0, 0, 1⟩⟩, ⟨"e3", ⟨0, 7, 9⟩⟩]⟩

/-- At the exponent the digit of the fraction is found with it. -/
theorem wordAt_identifier_exponent :
    Outline.parse exponentText = .ok exponentOutline ∧ EndsFraction exponentText ⟨0, 7⟩ "5" ∧
      wordAt exponentText 0 8 = .ok ⟨"5e3", ⟨0, 6, 9⟩⟩ := by
  have hparse : Outline.parse exponentText = .ok exponentOutline :=
    eq_ok_of_toOption (by decide +kernel)
  have htokens : tokenize exponentText = .ok [⟨.identifier, "x", ⟨0, 0, 0⟩⟩,
      ⟨.punctuation, "=", ⟨2, 0, 2⟩⟩, ⟨.number, "1.5", ⟨4, 0, 4⟩⟩,
      ⟨.identifier, "e3", ⟨7, 0, 7⟩⟩] := eq_ok_of_toOption (by decide +kernel)
  have hfraction : EndsFraction exponentText ⟨0, 7⟩ "5" :=
    ⟨_, htokens, ⟨.number, "1.5", ⟨4, 0, 4⟩⟩, by decide, rfl, by decide +kernel, "1", by decide⟩
  have hi : (⟨"e3", ⟨0, 7, 9⟩⟩ : Identifier) ∈ exponentOutline.identifiers := by decide
  have hstart : 7 ≤ 8 := by decide
  have hstop : 8 ≤ 9 := by decide
  exact ⟨hparse, hfraction, (wordAt_identifier hparse hi hstart hstop).2 "5" hfraction⟩

/-- At a column of an identifier another word may be found. -/
theorem wordAt_misses_identifier :
    ¬ ∀ (text : String) (o : Outline), Outline.parse text = .ok o → ∀ i ∈ o.identifiers,
      ∀ column, i.span.start ≤ column → column ≤ i.span.stop →
        wordAt text i.span.line column = .ok ⟨i.text, i.span⟩ := by
  intro hfound
  have hparse : Outline.parse exponentText = .ok exponentOutline :=
    eq_ok_of_toOption (by decide +kernel)
  have hexponent : wordAt exponentText 0 8 = .ok ⟨"e3", ⟨0, 7, 9⟩⟩ :=
    hfound _ _ hparse ⟨"e3", ⟨0, 7, 9⟩⟩ (by decide) 8 (by decide) (by decide)
  have hword : wordAt exponentText 0 8 = .ok ⟨"5e3", ⟨0, 6, 9⟩⟩ :=
    eq_ok_of_toOption (by decide +kernel)
  have htext := congrArg Word.text (Except.ok.inj (hexponent.symm.trans hword))
  revert htext
  decide

end SymbolAtlas
