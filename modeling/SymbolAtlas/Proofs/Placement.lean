import Mathlib.Data.List.Induction
import Mathlib.Data.List.TakeWhile
import SymbolAtlas.Text.Word
import SymbolAtlas.Token.Basic

/-!
# Cursors and the lines of a text

A cursor that is moved along a text counts line feeds and the characters behind
the last of them.  The lines of a text are cut in another way: a line may also
end in a carriage return with a line feed, and nothing behind the last line end
is no line.  The two agree wherever a word stands, since a word has neither
character in it.

## Main Definitions

* `Position.behind`: the line and the column behind some text.
* `lastLine`: what a text has behind its last line feed.

## Main Statements

* `Cursor.position_advanceAll`: what a cursor counts.
* `linesOf_at`: the line of a place, by what stands in front of it and behind it.
* `Cursor.advanceAll_of_clean`: along a word only the column grows.
* `Cursor.atOrBefore_advanceAll`: a cursor never moves back.
* `standsInLine`, `standsInLine_char`: the line with the number of the cursor has the
  word, or the character, at its column.
* `holds_word`: a word that stands in a text is held by its extent.
-/

namespace SymbolAtlas

/-- A text without line ends in it. -/
def IsClean (cs : List Char) : Prop := ∀ c ∈ cs, c ≠ '\n' ∧ c ≠ '\r'

theorem IsClean.tail {c : Char} {cs : List Char} (h : IsClean (c :: cs)) : IsClean cs :=
  fun x hx => h x (List.mem_cons_of_mem c hx)

/-- The place behind some text: a line for each line feed, and a column for each character
behind the last of them. -/
def Position.behind (text : List Char) : Position :=
  ⟨text.count '\n', (text.reverse.takeWhile (· ≠ '\n')).length⟩

namespace Cursor

/-! ## Moving a cursor -/

@[simp] theorem advanceAll_nil (place : Cursor) : place.advanceAll [] = place := rfl

@[simp] theorem advanceAll_cons (place : Cursor) (c : Char) (cs : List Char) :
    place.advanceAll (c :: cs) = (place.advance c).advanceAll cs := rfl

theorem advanceAll_append (place : Cursor) (cs ds : List Char) :
    place.advanceAll (cs ++ ds) = (place.advanceAll cs).advanceAll ds :=
  List.foldl_append

/-- Along a word the line stays and the column grows by its length. -/
theorem advanceAll_of_clean {cs : List Char} (h : IsClean cs) (place : Cursor) :
    (place.advanceAll cs).line = place.line ∧
      (place.advanceAll cs).column = place.column + cs.length := by
  induction cs generalizing place with
  | nil => exact ⟨rfl, rfl⟩
  | cons c cs ih =>
    have hc : c ≠ '\n' := (h c List.mem_cons_self).1
    obtain ⟨hline, hcolumn⟩ := ih h.tail (place.advance c)
    rw [advanceAll_cons, hline, hcolumn]
    simp only [advance, hc, if_false, List.length_cons, true_and]
    omega

/-- A cursor counts the line feeds behind it and the characters behind the last of them. -/
theorem position_advanceAll (text : List Char) :
    (start.advanceAll text).position = Position.behind text := by
  induction text using List.reverseRecOn with
  | nil => rfl
  | append_singleton text c ih =>
    obtain ⟨hline, hcolumn⟩ := Position.mk.inj ih
    rw [advanceAll_append, advanceAll_cons, advanceAll_nil, Position.behind, List.reverse_append]
    by_cases hc : c = '\n'
    · simp [position, advance, hc, hline]
    · simp [position, advance, hc, hline, hcolumn]

/-- A place is not behind another. -/
def AtOrBefore (a b : Cursor) : Prop :=
  a.line < b.line ∨ a.line = b.line ∧ a.column ≤ b.column

/-- A place is in front of another. -/
def Before (a b : Cursor) : Prop :=
  a.line < b.line ∨ a.line = b.line ∧ a.column < b.column

theorem AtOrBefore.refl (a : Cursor) : a.AtOrBefore a := .inr ⟨rfl, Nat.le_refl _⟩

theorem AtOrBefore.trans {a b c : Cursor} (hab : a.AtOrBefore b) (hbc : b.AtOrBefore c) :
    a.AtOrBefore c := by
  simp only [AtOrBefore] at *
  omega

theorem Before.trans_atOrBefore {a b c : Cursor} (hab : a.Before b) (hbc : b.AtOrBefore c) :
    a.Before c := by
  simp only [AtOrBefore, Before] at *
  omega

theorem Before.atOrBefore {a b : Cursor} (h : a.Before b) : a.AtOrBefore b := by
  simp only [AtOrBefore, Before] at *
  omega

theorem not_before_self (a : Cursor) : ¬ a.Before a := by
  simp [Before]

theorem before_advance (place : Cursor) (c : Char) : place.Before (place.advance c) := by
  simp only [Before, advance]
  split <;> simp

/-- A cursor never moves back. -/
theorem atOrBefore_advanceAll (place : Cursor) (cs : List Char) :
    place.AtOrBefore (place.advanceAll cs) := by
  induction cs generalizing place with
  | nil => exact .refl place
  | cons c cs ih => exact (before_advance place c).atOrBefore.trans (ih _)

/-- A cursor moves on with every character. -/
theorem before_advanceAll (place : Cursor) {cs : List Char} (h : cs ≠ []) :
    place.Before (place.advanceAll cs) := by
  cases cs with
  | nil => exact absurd rfl h
  | cons c cs =>
    exact (before_advance place c).trans_atOrBefore (atOrBefore_advanceAll _ cs)

end Cursor

/-! ## Finding a word in its line -/

/-- A character that ends no line stands at the beginning of the first line. -/
theorem linesOf_cons {c : Char} {rest : List Char} (hlf : c ≠ '\n')
    (hcr : ∀ more, c = '\r' → rest ≠ '\n' :: more) :
    linesOf (c :: rest) = (c :: (linesOf rest).headD []) :: (linesOf rest).tail := by
  rw [linesOf]
  · cases linesOf rest <;> rfl
  · exact hlf
  · exact hcr

theorem linesOf_ne_nil {text : List Char} (h : text ≠ []) : linesOf text ≠ [] := by
  fun_cases linesOf text with
  | case1 => exact absurd rfl h
  | _ => exact List.cons_ne_nil _ _

theorem headD_cons_tail_linesOf {text : List Char} (h : text ≠ []) :
    (linesOf text).headD [] :: (linesOf text).tail = linesOf text := by
  cases hlines : linesOf text with
  | nil => exact absurd hlines (linesOf_ne_nil h)
  | cons line lines => rfl

/-- A carriage return among characters without line feeds ends no line, unless a line feed
follows them. -/
theorem ne_feed_of_run {run after : List Char} (hrun : '\n' ∉ run)
    (hafter : run = [] → ∀ more, after ≠ '\n' :: more) (more : List Char) :
    run ++ after ≠ '\n' :: more := by
  cases run with
  | nil => exact hafter rfl more
  | cons d run =>
    intro heq
    rw [(List.cons.inj heq).1] at hrun
    exact hrun List.mem_cons_self

/-- Characters without line feeds lengthen the first of the lines behind them. -/
theorem linesOf_run {run after : List Char} (hrun : '\n' ∉ run) (hne : after ≠ [])
    (hafter : ∀ more, after ≠ '\n' :: more) :
    linesOf (run ++ after) = (run ++ (linesOf after).headD []) :: (linesOf after).tail := by
  induction run with
  | nil => exact (headD_cons_tail_linesOf hne).symm
  | cons c run ih =>
    rw [List.mem_cons, not_or] at hrun
    rw [List.cons_append, linesOf_cons (Ne.symm hrun.1), ih hrun.2]
    · rfl
    · exact fun more _ => ne_feed_of_run hrun.2 (fun _ => hafter) more

/-- A word lengthens the first of the lines behind it. -/
theorem linesOf_word {word : List Char} (hword : word ≠ []) (hclean : IsClean word)
    (after : List Char) :
    linesOf (word ++ after) = (word ++ (linesOf after).headD []) :: (linesOf after).tail := by
  induction word with
  | nil => exact absurd rfl hword
  | cons c word ih =>
    obtain ⟨hlf, hcr⟩ := hclean c List.mem_cons_self
    rw [List.cons_append, linesOf_cons hlf fun _ h => absurd h hcr]
    by_cases hnil : word = []
    · rw [hnil]
      rfl
    · rw [ih hnil hclean.tail]
      rfl

/-- A line feed ends a line, whatever follows it. -/
theorem linesOf_feed {run : List Char} (hrun : '\n' ∉ run) :
    ∃ line, ∀ rest, linesOf (run ++ '\n' :: rest) = line :: linesOf rest := by
  induction run with
  | nil => exact ⟨[], fun rest => by rw [List.nil_append, linesOf]⟩
  | cons c run ih =>
    rw [List.mem_cons, not_or] at hrun
    obtain ⟨line, hline⟩ := ih hrun.2
    by_cases hreturn : c = '\r' ∧ run = []
    · obtain ⟨rfl, rfl⟩ := hreturn
      exact ⟨[], fun rest => by rw [List.cons_append, List.nil_append, linesOf]⟩
    · refine ⟨c :: line, fun rest => ?_⟩
      rw [List.cons_append, linesOf_cons (Ne.symm hrun.1), hline]
      · rfl
      · exact fun more hc =>
          ne_feed_of_run hrun.2 (fun hnil => absurd ⟨hc, hnil⟩ hreturn) more

/-- What a text has behind its last line feed. -/
def lastLine (text : List Char) : List Char := (text.reverse.takeWhile (· ≠ '\n')).reverse

theorem lastLine_of_notMem {text : List Char} (h : '\n' ∉ text) : lastLine text = text := by
  have hall : ∀ c ∈ text.reverse, decide (c ≠ '\n') = true := by
    intro c hc
    refine decide_eq_true ?_
    rintro rfl
    exact h (List.mem_reverse.1 hc)
  rw [lastLine, List.takeWhile_eq_self_iff.2 hall, List.reverse_reverse]

theorem lastLine_append_feed (front back : List Char) :
    lastLine (front ++ '\n' :: back) = lastLine back := by
  rw [lastLine, lastLine, List.reverse_append, List.reverse_cons, List.append_assoc,
    List.takeWhile_append]
  split
  · next hlength =>
    have hself : back.reverse.takeWhile (· ≠ '\n') = back.reverse :=
      List.IsPrefix.eq_of_length (List.takeWhile_prefix _) hlength
    rw [hself]
    simp
  · rfl

/-- The line of a place is made of what stands in front of the place and of the first of the
lines behind it. -/
theorem linesOf_at (before : List Char) {after : List Char} (hne : after ≠ [])
    (hafter : ∀ more, after ≠ '\n' :: more) :
    (linesOf (before ++ after))[before.count '\n']? =
      some (lastLine before ++ (linesOf after).headD []) := by
  -- by the number of lines that are passed
  generalize hcount : before.count '\n' = number
  induction number generalizing before with
  | zero =>
    have hbefore : '\n' ∉ before := List.count_eq_zero.1 hcount
    rw [linesOf_run hbefore hne hafter, lastLine_of_notMem hbefore]
    rfl
  | succ number ih =>
    have hmem : '\n' ∈ before := List.count_pos_iff.1 (by omega)
    obtain ⟨run, rest, rfl, hrun⟩ := List.eq_append_cons_of_mem hmem
    obtain ⟨line, hline⟩ := linesOf_feed hrun
    have hrest : rest.count '\n' = number := by
      rw [List.count_append, List.count_cons_self, List.count_eq_zero.2 hrun] at hcount
      omega
    rw [List.append_assoc, List.cons_append, hline, List.getElem?_cons_succ, ih rest hrest,
      lastLine_append_feed]

/-- After `before`, the line of the cursor has `word` at its column. -/
def StandsInLine (before word after : List Char) : Prop :=
  ∃ front back, (linesOf (before ++ (word ++ after)))[(Cursor.start.advanceAll before).line]? =
      some (front ++ (word ++ back)) ∧
    front.length = (Cursor.start.advanceAll before).column

/-- The line of a cursor has at its column what the first line behind the cursor begins
with. -/
theorem standsInLine_of_linesOf (before : List Char) {word after : List Char}
    (hfirst : ∀ more, word ++ after ≠ '\n' :: more)
    (hlines : ∃ back lines, linesOf (word ++ after) = (word ++ back) :: lines) :
    StandsInLine before word after := by
  obtain ⟨back, lines, hlines⟩ := hlines
  have hne : word ++ after ≠ [] := by
    intro heq
    rw [heq] at hlines
    cases hlines
  obtain ⟨hline, hcolumn⟩ := Position.mk.inj (Cursor.position_advanceAll before)
  refine ⟨lastLine before, back, ?_, ?_⟩
  · rw [hline, linesOf_at before hne hfirst, hlines]
    rfl
  · rw [hcolumn, lastLine, List.length_reverse]

/-- The line of a cursor has at its column the word that stands there. -/
theorem standsInLine (before : List Char) {word : List Char} (hword : word ≠ [])
    (hclean : IsClean word) (after : List Char) : StandsInLine before word after := by
  refine standsInLine_of_linesOf before (fun more heq => ?_) ⟨_, _, linesOf_word hword hclean after⟩
  cases word with
  | nil => exact hword rfl
  | cons c word => exact (hclean c List.mem_cons_self).1 (List.cons.inj heq).1

/-- The line of a cursor has at its column the character that stands there, unless that
belongs to a line end. -/
theorem standsInLine_char (before : List Char) {c : Char} {after : List Char} (hlf : c ≠ '\n')
    (hcr : ∀ more, c = '\r' → after ≠ '\n' :: more) : StandsInLine before [c] after := by
  refine standsInLine_of_linesOf before (fun more heq => hlf (List.cons.inj heq).1) ?_
  exact ⟨_, _, linesOf_cons hlf hcr⟩

/-- What stands in its line is held by its extent. -/
theorem StandsInLine.holds {before word after : List Char} (h : StandsInLine before word after) :
    holds (String.ofList (before ++ (word ++ after)))
      (Span.ofName (Cursor.start.advanceAll before).position (String.ofList word))
      (String.ofList word) = true := by
  obtain ⟨front, back, hline, hlength⟩ := h
  simp only [SymbolAtlas.holds, holdsAt, line?, Span.ofName, Span.position, Cursor.position,
    Span.length, String.toList_ofList, hline, ← hlength]
  simp

/-- A word that stands in a text is held by its extent. -/
theorem holds_word (before : List Char) {word : List Char} (hword : word ≠ [])
    (hclean : IsClean word) (after : List Char) :
    holds (String.ofList (before ++ (word ++ after)))
      (Span.ofName (Cursor.start.advanceAll before).position (String.ofList word))
      (String.ofList word) = true :=
  (standsInLine before hword hclean after).holds

end SymbolAtlas
