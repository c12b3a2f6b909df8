import Mathlib.Data.List.TakeWhile
import SymbolAtlas.Text.Word

/-!
# The word under a caret

A caret is put in a text, and the word there is found by its characters alone.  Where
the text has the same word in a span that touches the caret, that span is the extent of
the word: the characters of the span are word characters next to the caret, so the
longest run around the caret takes them all in, and it has no room for more.

## Main Statements

* `holds_iff`: what a line is made of that holds a word.
* `wordAround_append`: a run of word characters around a caret is part of the word.
* `eq_span_of_touches`: the word under a caret is held by its own extent only.
-/

namespace SymbolAtlas

/-- A span is filled by a word exactly when its line is made of what stands before the
span, the word and the rest. -/
theorem holds_iff {text : String} {span : Span} {expected : String} :
    holds text span expected = true ↔
      ∃ front back, line? text span.line = some (front ++ (expected.toList ++ back)) ∧
        front.length = span.start ∧ span.length = expected.length := by
  simp only [holds, holdsAt, Bool.and_eq_true, beq_iff_eq, Span.position]
  constructor
  · rintro ⟨hlength, hat⟩
    cases hline : line? text span.line with
    | none => simp [hline] at hat
    | some chars =>
      simp only [hline, Bool.and_eq_true, List.isPrefixOf_iff_prefix] at hat
      obtain ⟨hstart, back, hback⟩ := hat
      refine ⟨chars.take span.start, back, ?_, ?_, hlength⟩
      · rw [hback, List.take_append_drop]
      · exact List.length_take_of_le (of_decide_eq_true hstart)
  · rintro ⟨front, back, hline, hstart, hlength⟩
    refine ⟨hlength, ?_⟩
    simp [hline, ← hstart]

section Runs

variable {front run rest back : List Char}

/-- What the word takes in to the left of a caret behind a run of word characters. -/
theorem takeWhile_reverse_take (hrun : ∀ c ∈ run, isWordChar c = true) :
    (((front ++ (run ++ rest)).take (front.length + run.length)).reverse.takeWhile
      isWordChar).reverse = (front.reverse.takeWhile isWordChar).reverse ++ run := by
  have htake : (front ++ (run ++ rest)).take (front.length + run.length) = front ++ run := by
    rw [List.take_length_add_append, List.take_left]
  have hrun' : ∀ c ∈ run.reverse, isWordChar c = true := by simpa using hrun
  rw [htake, List.reverse_append, List.takeWhile_append_of_pos hrun', List.reverse_append,
    List.reverse_reverse]

/-- A run of word characters around a caret is part of the word there, which goes on as
long as there are word characters. -/
theorem wordAround_append {number : Nat} (hrun : ∀ c ∈ run, isWordChar c = true)
    (hrest : ∀ c ∈ rest, isWordChar c = true) :
    wordAround (front ++ (run ++ (rest ++ back))) number (front.length + run.length) =
      let before := (front.reverse.takeWhile isWordChar).reverse
      let after := back.takeWhile isWordChar
      ⟨String.ofList (before ++ (run ++ rest) ++ after),
        ⟨number, front.length - before.length,
          front.length + run.length + rest.length + after.length⟩⟩ := by
  have hright : ((front ++ (run ++ (rest ++ back))).drop (front.length + run.length)).takeWhile
      isWordChar = rest ++ back.takeWhile isWordChar := by
    rw [List.drop_length_add_append, List.drop_left, List.takeWhile_append_of_pos hrest]
  simp only [wordAround, takeWhile_reverse_take hrun, hright, List.append_assoc, List.length_append,
    List.length_reverse, Nat.add_sub_add_right, Nat.add_assoc]

/-- When the word around a caret is no more than a run, its extent is that of the
run. -/
theorem span_wordAround {number : Nat} (hrun : ∀ c ∈ run, isWordChar c = true)
    (hrest : ∀ c ∈ rest, isWordChar c = true)
    (htext : (wordAround (front ++ (run ++ (rest ++ back))) number
      (front.length + run.length)).text.toList = run ++ rest) :
    (wordAround (front ++ (run ++ (rest ++ back))) number (front.length + run.length)).span =
      ⟨number, front.length, front.length + run.length + rest.length⟩ := by
  rw [wordAround_append hrun hrest] at htext ⊢
  have hlength := congrArg List.length htext
  simp only [String.toList_ofList, List.length_append] at hlength
  simp only [Span.mk.injEq, true_and]
  omega

end Runs

section Carets

variable {text : String} {line column : Nat} {word : Word}

theorem wordAt_eq_ok_iff :
    wordAt text line column = .ok word ↔ ∃ chars, line? text line = some chars ∧
      column ≤ chars.length ∧ wordAround chars line column = word := by
  unfold wordAt
  cases line? text line with
  | none => simp
  | some chars =>
    by_cases hcolumn : column ≤ chars.length
    · simp [hcolumn]
    · simp [hcolumn]

/-- The word under a caret touches it. -/
theorem touches_of_wordAt (h : wordAt text line column = .ok word) :
    word.span.touches ⟨line, column⟩ = true := by
  obtain ⟨chars, -, -, rfl⟩ := wordAt_eq_ok_iff.1 h
  simp [wordAround, Span.touches]

/-- The characters of a word are word characters. -/
theorem forall_isWordChar_of_wordAt (h : wordAt text line column = .ok word) :
    ∀ c ∈ word.text.toList, isWordChar c = true := by
  obtain ⟨chars, -, -, rfl⟩ := wordAt_eq_ok_iff.1 h
  intro c hc
  rw [wordAround, String.toList_ofList, List.mem_append, List.mem_reverse] at hc
  rcases hc with hc | hc
  · exact List.mem_takeWhile_imp hc
  · exact List.mem_takeWhile_imp hc

/-- A span that touches a caret and is filled by the word there is the extent of the
word. -/
theorem eq_span_of_touches (h : wordAt text line column = .ok word) {span : Span}
    (hholds : holds text span word.text = true) (htouches : span.touches ⟨line, column⟩ = true) :
    span = word.span := by
  have hchars := forall_isWordChar_of_wordAt h
  obtain ⟨front, back, hline, hstart, hlength⟩ := holds_iff.1 hholds
  simp only [Span.touches, Bool.and_eq_true, beq_iff_eq, decide_eq_true_eq] at htouches
  obtain ⟨⟨rfl, hfrom⟩, hupto⟩ := htouches
  obtain ⟨chars, hchars', -, hword⟩ := wordAt_eq_ok_iff.1 h
  obtain rfl := Option.some.inj (hline.symm.trans hchars')
  -- the caret cuts the span in two runs
  obtain ⟨run, rest, hruns, hcut⟩ : ∃ run rest, word.text.toList = run ++ rest ∧
      run.length = column - span.start := by
    refine ⟨word.text.toList.take (column - span.start), _,
      (List.take_append_drop _ _).symm, List.length_take_of_le ?_⟩
    rw [String.length_toList, ← hlength, Span.length]
    omega
  have hcolumn : column = front.length + run.length := by omega
  have hstop : span.stop = front.length + run.length + rest.length := by
    have htotal := congrArg List.length hruns
    rw [String.length_toList, ← hlength, Span.length, List.length_append] at htotal
    omega
  rw [hruns, List.forall_mem_append] at hchars
  rw [hruns, List.append_assoc, hcolumn] at hword
  rw [← hword, span_wordAround hchars.1 hchars.2 (by rw [hword, hruns]), ← hstop, hstart]

end Carets

end SymbolAtlas
