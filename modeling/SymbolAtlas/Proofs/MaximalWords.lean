import SymbolAtlas.Proofs.Words

/-!
# Maximal words and exact extents

Two parts of the library look at the characters of a line.  One of them scans to both sides
of a caret for as long as there are word characters; the other compares the characters from
a column on with an expected text, and its length with that of a span.  Both are said here
by columns of the line alone: the word at a caret is the one run of word characters there
that cannot be made longer, and a span is filled by a text exactly when the line has that
text between the two columns.  So whatever is found at a caret is also verified there.

## Main Definitions

* `IsWordLetter`: the characters of words, by the classes of ASCII.
* `MaximalAt`: a word is the maximal run at a column of a line.
* `ResolvesWords`: what is found at the carets of a text, and what is verified in it.

## Main Statements

* `wordAt_eq_ok_iff_maximalAt`: the word at a caret is the maximal one.
* `holds_iff_extract`: when a span is filled by a text.
* `words_resolved`: words are resolved and verified in every text.
-/

namespace SymbolAtlas

/-- The characters of words: ASCII letters, digits and the underscore. -/
def IsWordLetter (c : Char) : Prop := c.isAlphanum = true ∨ c = '_'

theorem isWordChar_iff {c : Char} : isWordChar c = true ↔ IsWordLetter c := by
  have hclasses : c.isAlphanum = ((c.isUpper || c.isLower) || c.isDigit) := rfl
  have hupper : c.isUpper = decide ('A'.val ≤ c.val ∧ c.val ≤ 'Z'.val) := rfl
  have hlower : c.isLower = (decide ('a'.val ≤ c.val) && decide (c.val ≤ 'z'.val)) := rfl
  have hdigit : c.isDigit = (decide ('0'.val ≤ c.val) && decide (c.val ≤ '9'.val)) := rfl
  simp only [isWordChar, isLetter, isDigitChar, IsWordLetter, hclasses, hupper, hlower, hdigit,
    Bool.or_eq_true, Bool.and_eq_true, decide_eq_true_eq, beq_iff_eq, UInt32.le_iff_toNat_le]
  exact or_congr (or_congr or_comm .rfl) .rfl

theorem isWordChar_eq_false_iff {c : Char} : isWordChar c = false ↔ ¬ IsWordLetter c := by
  rw [← isWordChar_iff, Bool.not_eq_true]

/-- A word is the maximal run of word characters at a column of a line.  It contains the
column or has it at one of its ends, it is what the line has between its own columns, and no
character next to it is a word character. -/
structure MaximalAt (chars : List Char) (line column : Nat) (w : Word) : Prop where
  line_eq : w.span.line = line
  start_le : w.span.start ≤ column
  le_stop : column ≤ w.span.stop
  stop_le : w.span.stop ≤ chars.length
  text_eq : w.text.toList = chars.extract w.span.start w.span.stop
  letters : ∀ c ∈ w.text.toList, IsWordLetter c
  front : ∀ c, 0 < w.span.start → chars[w.span.start - 1]? = some c → ¬ IsWordLetter c
  back : ∀ c, chars[w.span.stop]? = some c → ¬ IsWordLetter c

/-! ## Words at carets -/

section Columns

variable {chars : List Char} {start column stop : Nat}

theorem drop_eq_drop_drop (h : start ≤ column) :
    chars.drop column = (chars.drop start).drop (column - start) := by
  rw [List.drop_drop, Nat.add_sub_cancel' h]

theorem extract_append_extract (hstart : start ≤ column) (hstop : column ≤ stop) :
    chars.extract start column ++ chars.extract column stop = chars.extract start stop := by
  have hwidth : stop - start = (column - start) + (stop - column) := by omega
  rw [List.extract, List.extract, List.extract, hwidth, List.take_add, drop_eq_drop_drop hstart]

theorem take_append_extract (h : start ≤ column) :
    chars.take start ++ chars.extract start column = chars.take column := by
  rw [List.extract, ← List.take_add, Nat.add_sub_cancel' h]

theorem extract_append_drop (h : column ≤ stop) :
    chars.extract column stop ++ chars.drop stop = chars.drop column := by
  rw [List.extract, drop_eq_drop_drop h, List.take_append_drop]

theorem length_extract (h : stop ≤ chars.length) :
    (chars.extract start stop).length = stop - start := by
  rw [List.length_take, List.length_drop]
  omega

end Columns

section Carets

variable {chars : List Char} {line column : Nat} {w : Word}

namespace MaximalAt

theorem forall_isWordChar (h : MaximalAt chars line column w) :
    (∀ c ∈ chars.extract w.span.start column, isWordChar c = true) ∧
      ∀ c ∈ chars.extract column w.span.stop, isWordChar c = true := by
  have hletters : ∀ c ∈ w.text.toList, isWordChar c = true :=
    fun c hc => isWordChar_iff.2 (h.letters c hc)
  rw [h.text_eq, ← extract_append_extract h.start_le h.le_stop] at hletters
  exact List.forall_mem_append.1 hletters

/-- Nothing of what stands in front of a maximal word continues it. -/
theorem takeWhile_front (h : MaximalAt chars line column w) :
    (chars.take w.span.start).reverse.takeWhile isWordChar = [] := by
  cases hfront : (chars.take w.span.start).reverse with
  | nil => rfl
  | cons c front =>
    have hlast : (chars.take w.span.start).getLast? = some c := by
      rw [← List.head?_reverse, hfront, List.head?_cons]
    have hpos : 0 < w.span.start := by
      refine Nat.pos_of_ne_zero fun hzero => ?_
      rw [hzero] at hlast
      cases hlast
    have hc : chars[w.span.start - 1]? = some c := by
      have hlength := Nat.le_trans h.start_le (Nat.le_trans h.le_stop h.stop_le)
      rwa [List.getLast?_eq_getElem?, List.length_take_of_le hlength,
        List.getElem?_take_of_lt (Nat.sub_lt hpos Nat.one_pos)] at hlast
    exact List.takeWhile_cons_of_neg (by simp [isWordChar_eq_false_iff.2 (h.front c hpos hc)])

/-- Nothing of what stands behind a maximal word continues it. -/
theorem takeWhile_back (h : MaximalAt chars line column w) :
    (chars.drop w.span.stop).takeWhile isWordChar = [] := by
  cases hback : chars.drop w.span.stop with
  | nil => rfl
  | cons c back =>
    have hc : chars[w.span.stop]? = some c := by
      rw [← List.head?_drop, hback, List.head?_cons]
    exact List.takeWhile_cons_of_neg (by simp [isWordChar_eq_false_iff.2 (h.back c hc)])

/-- The scan to both sides of a column finds the maximal word, whichever that is. -/
theorem wordAround_eq (h : MaximalAt chars line column w) : wordAround chars line column = w := by
  have hstart := h.start_le
  have hstop := h.le_stop
  have hlength := h.stop_le
  obtain ⟨hrun, hrest⟩ := h.forall_isWordChar
  have hleft : ((chars.take column).reverse.takeWhile isWordChar).reverse =
      chars.extract w.span.start column := by
    rw [← take_append_extract hstart, List.reverse_append,
      List.takeWhile_append_of_pos (by simpa using hrun), h.takeWhile_front, List.append_nil,
      List.reverse_reverse]
  have hright : (chars.drop column).takeWhile isWordChar = chars.extract column w.span.stop := by
    rw [← extract_append_drop hstop, List.takeWhile_append_of_pos hrest, h.takeWhile_back,
      List.append_nil]
  have hspan : (⟨line, column - (column - w.span.start), column + (w.span.stop - column)⟩ : Span) =
      w.span := by
    rw [← h.line_eq, Nat.sub_sub_self hstart, Nat.add_sub_cancel' hstop]
  rw [wordAround, hleft, hright, extract_append_extract hstart hstop, ← h.text_eq,
    String.ofList_toList, length_extract (Nat.le_trans hstop hlength), length_extract hlength,
    hspan]

end MaximalAt

/-- A run that is taken from the front of some characters leaves none that continue it. -/
theorem exists_rest_of_takeWhile (p : Char → Bool) (cs : List Char) :
    ∃ rest, cs = cs.takeWhile p ++ rest ∧ ∀ c, rest.head? = some c → p c = false := by
  refine ⟨cs.dropWhile p, List.takeWhile_append_dropWhile.symm, fun c hc => ?_⟩
  have hnot := List.head?_dropWhile_not p cs
  rw [hc] at hnot
  exact hnot

/-- The same for a run that is taken from the end. -/
theorem exists_front_of_takeWhile (p : Char → Bool) (cs : List Char) :
    ∃ front, cs = front ++ (cs.reverse.takeWhile p).reverse ∧
      ∀ c, front.getLast? = some c → p c = false := by
  obtain ⟨rest, hcs, hrest⟩ := exists_rest_of_takeWhile p cs.reverse
  refine ⟨rest.reverse, ?_, fun c hc => hrest c ?_⟩
  · rw [← List.reverse_append, ← hcs, List.reverse_reverse]
  · rwa [List.getLast?_reverse] at hc

/-- A run of word characters between characters that are none is the maximal word at each of
its columns. -/
theorem maximalAt_of_cut {front run back : List Char} (hrun : ∀ c ∈ run, isWordChar c = true)
    (hfront : ∀ c, front.getLast? = some c → isWordChar c = false)
    (hback : ∀ c, back.head? = some c → isWordChar c = false)
    (hstart : front.length ≤ column) (hstop : column ≤ front.length + run.length) :
    MaximalAt (front ++ (run ++ back)) line column
      ⟨String.ofList run, ⟨line, front.length, front.length + run.length⟩⟩ where
  line_eq := rfl
  start_le := hstart
  le_stop := hstop
  stop_le := by
    rw [List.length_append, List.length_append]
    exact Nat.add_le_add_left (Nat.le_add_right _ _) _
  text_eq := by
    rw [String.toList_ofList, List.extract, List.drop_left, Nat.add_sub_cancel_left,
      List.take_left]
  letters c hc := by
    rw [String.toList_ofList] at hc
    exact isWordChar_iff.1 (hrun c hc)
  front c hpos hc := by
    refine isWordChar_eq_false_iff.1 (hfront c ?_)
    rwa [List.getElem?_append_left (Nat.sub_lt hpos Nat.one_pos),
      ← List.getLast?_eq_getElem?] at hc
  back c hc := by
    refine isWordChar_eq_false_iff.1 (hback c ?_)
    rwa [← List.head?_drop, ← List.append_assoc, List.drop_left'] at hc
    exact List.length_append

/-- The scan to both sides of a column of the line finds a maximal word. -/
theorem maximalAt_wordAround (h : column ≤ chars.length) :
    MaximalAt chars line column (wordAround chars line column) := by
  obtain ⟨front, hleft, hfront⟩ := exists_front_of_takeWhile isWordChar (chars.take column)
  obtain ⟨back, hright, hback⟩ := exists_rest_of_takeWhile isWordChar (chars.drop column)
  have hrun : ∀ c ∈ ((chars.take column).reverse.takeWhile isWordChar).reverse ++
      (chars.drop column).takeWhile isWordChar, isWordChar c = true := by
    refine List.forall_mem_append.2 ⟨fun c hc => ?_, fun c hc => List.mem_takeWhile_imp hc⟩
    exact List.mem_takeWhile_imp (List.mem_reverse.1 hc)
  rw [wordAround]
  generalize ((chars.take column).reverse.takeWhile isWordChar).reverse = left at hleft hrun ⊢
  generalize (chars.drop column).takeWhile isWordChar = right at hright hrun ⊢
  have hcolumn : column = front.length + left.length := by
    rw [← List.length_append, ← hleft, List.length_take_of_le h]
  have hchars : chars = front ++ ((left ++ right) ++ back) := by
    rw [List.append_assoc, ← hright, ← List.append_assoc, ← hleft, List.take_append_drop]
  have hspan : (⟨line, column - left.length, column + right.length⟩ : Span) =
      ⟨line, front.length, front.length + (left ++ right).length⟩ := by
    rw [List.length_append, hcolumn, Nat.add_sub_cancel, Nat.add_assoc]
  rw [hspan, hchars]
  refine maximalAt_of_cut hrun hfront hback ?_ ?_
  · omega
  · rw [List.length_append]
    omega

end Carets

/-- The word at a caret is the maximal one at the column of the line. -/
theorem wordAt_eq_ok_iff_maximalAt {text : String} {line column : Nat} {w : Word} :
    wordAt text line column = .ok w ↔
      ∃ chars, line? text line = some chars ∧ MaximalAt chars line column w := by
  rw [wordAt_eq_ok_iff]
  constructor
  · rintro ⟨chars, hline, hcolumn, rfl⟩
    exact ⟨chars, hline, maximalAt_wordAround hcolumn⟩
  · rintro ⟨chars, hline, hmaximal⟩
    exact ⟨chars, hline, Nat.le_trans hmaximal.le_stop hmaximal.stop_le, hmaximal.wordAround_eq⟩

/-! ## Filled spans -/

/-- A span is filled by a text exactly when the line has it between the two columns. -/
theorem holds_iff_extract {text : String} {span : Span} {expected : String}
    (h : span.start ≤ span.stop) :
    holds text span expected = true ↔ ∃ chars, line? text span.line = some chars ∧
      span.stop ≤ chars.length ∧ chars.extract span.start span.stop = expected.toList := by
  rw [holds_iff]
  constructor
  · rintro ⟨front, back, hline, hstart, hlength⟩
    rw [Span.length, ← String.length_toList] at hlength
    refine ⟨_, hline, ?_, ?_⟩
    · simp only [List.length_append]
      omega
    · rw [List.extract, hlength, ← hstart, List.drop_left, List.take_left]
  · rintro ⟨chars, hline, hstop, hextract⟩
    refine ⟨chars.take span.start, chars.drop span.stop, ?_, ?_, ?_⟩
    · rw [hline, ← hextract, extract_append_drop h, List.take_append_drop]
    · exact List.length_take_of_le (Nat.le_trans h hstop)
    · rw [← String.length_toList, ← hextract, length_extract hstop, Span.length]

/-! ## Whole texts -/

/-- What is found at the carets of a text, and what is verified in it. -/
structure ResolvesWords (text : String) : Prop where
  /-- Something is found at a caret exactly when it stands on a line of the text, at most
  behind the last character. -/
  ok_iff : ∀ line column, (∃ w, wordAt text line column = .ok w) ↔
    ∃ chars, line? text line = some chars ∧ column ≤ chars.length
  /-- What is found is the maximal word. -/
  maximal : ∀ line column w, wordAt text line column = .ok w →
    ∀ chars, line? text line = some chars → MaximalAt chars line column w
  /-- The same word is found at all of its columns. -/
  stable : ∀ line column w, wordAt text line column = .ok w → ∀ other, w.span.start ≤ other →
    other ≤ w.span.stop → wordAt text line other = .ok w
  /-- What is found is verified. -/
  verified : ∀ line column w, wordAt text line column = .ok w → holds text w.span w.text = true
  /-- A text is verified exactly when the line has it between the two columns. -/
  holds_iff : ∀ span expected, span.start ≤ span.stop →
    (holds text span expected = true ↔ ∃ chars, line? text span.line = some chars ∧
      span.stop ≤ chars.length ∧ chars.extract span.start span.stop = expected.toList)

/-- Words are resolved and verified in every text. -/
theorem words_resolved (text : String) : ResolvesWords text where
  ok_iff line column := by
    constructor
    · rintro ⟨w, hw⟩
      obtain ⟨chars, hline, hcolumn, -⟩ := wordAt_eq_ok_iff.1 hw
      exact ⟨chars, hline, hcolumn⟩
    · rintro ⟨chars, hline, hcolumn⟩
      exact ⟨_, wordAt_eq_ok_iff.2 ⟨chars, hline, hcolumn, rfl⟩⟩
  maximal line column w hw chars hline := by
    obtain ⟨chars', hline', hmaximal⟩ := wordAt_eq_ok_iff_maximalAt.1 hw
    obtain rfl := Option.some.inj (hline.symm.trans hline')
    exact hmaximal
  stable line column w hw other hstart hstop := by
    -- being maximal says nothing of the column but that it is one of the word's
    obtain ⟨chars, hline, hmaximal⟩ := wordAt_eq_ok_iff_maximalAt.1 hw
    exact wordAt_eq_ok_iff_maximalAt.2
      ⟨chars, hline, { hmaximal with start_le := hstart, le_stop := hstop }⟩
  verified line column w hw := by
    obtain ⟨chars, hline, hmaximal⟩ := wordAt_eq_ok_iff_maximalAt.1 hw
    have hle := Nat.le_trans hmaximal.start_le hmaximal.le_stop
    rw [← hmaximal.line_eq] at hline
    exact (holds_iff_extract hle).2 ⟨chars, hline, hmaximal.stop_le, hmaximal.text_eq.symm⟩
  holds_iff span expected h := holds_iff_extract h

end SymbolAtlas
