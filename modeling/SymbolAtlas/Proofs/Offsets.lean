import SymbolAtlas.Proofs.MaximalMunch
import SymbolAtlas.Text.LineStarts

/-!
# Byte offsets, positions and lines

A place in a text has a byte offset, a line and a column.  Three parts of the library count
them in three ways: line starts are searched for an offset, a cursor is moved along the text,
and lines are cut at line feeds, with or without a carriage return in front.  All of them
agree on every offset that lies between two characters and on every character that is no part
of a line end.

## Main Definitions

* `Position.Before`: one position comes before another.
* `positionAt`: the position of an offset in a text.
* `PlacesAgree`: offsets, positions and lines of a text agree.

## Main Statements

* `LineStarts.position_append`: the position of an offset, by what stands in front of it.
* `positionAt_startOffset`: tokens stand at the positions of their offsets.
* `places_agree`: offsets, positions and lines agree in every text.
-/

namespace SymbolAtlas

/-- A position comes before another, on an earlier line or further left on the same one. -/
def Position.Before (p q : Position) : Prop :=
  p.line < q.line ∨ p.line = q.line ∧ p.column < q.column

/-- The more text there is in front, the later the position. -/
theorem Position.behind_before (front : List Char) {more : List Char} (h : more ≠ []) :
    (Position.behind front).Before (Position.behind (front ++ more)) := by
  rw [← Cursor.position_advanceAll, ← Cursor.position_advanceAll, Cursor.advanceAll_append]
  exact Cursor.before_advanceAll _ h

theorem utf8ByteSize_ofList_cons (c : Char) (cs : List Char) :
    (String.ofList (c :: cs)).utf8ByteSize = c.utf8Size + (String.ofList cs).utf8ByteSize := by
  rw [String.ofList_cons, String.utf8ByteSize_append, String.utf8ByteSize_singleton]

namespace LineStarts

/-! ## Counting characters -/

/-- In front of the offset behind some characters stand these characters. -/
theorem charactersBefore_append (front back : List Char) :
    charactersBefore (String.ofList front).utf8ByteSize (front ++ back) = some front.length := by
  induction front with
  | nil => simp [charactersBefore]
  | cons c front ih =>
    obtain ⟨size, hsize⟩ := Nat.exists_eq_add_of_lt c.utf8Size_pos
    have hoffset : (String.ofList (c :: front)).utf8ByteSize =
        size + (String.ofList front).utf8ByteSize + 1 := by
      rw [utf8ByteSize_ofList_cons, hsize]
      omega
    have hrest : size + (String.ofList front).utf8ByteSize + 1 - c.utf8Size =
        (String.ofList front).utf8ByteSize := by omega
    rw [hoffset, List.cons_append, charactersBefore, if_neg (by omega), hrest, ih]
    rfl

/-! ## Finding the line -/

theorem length_afterLineFeeds (offset : Nat) (cs : List Char) :
    (afterLineFeeds offset cs).length = cs.count '\n' := by
  induction cs generalizing offset with
  | nil => rfl
  | cons c cs ih =>
    rw [afterLineFeeds]
    by_cases hc : c = '\n' <;> simp [hc, ih]

theorem afterLineFeeds_append (offset : Nat) (front back : List Char) :
    afterLineFeeds offset (front ++ back) = afterLineFeeds offset front ++
      afterLineFeeds (offset + (String.ofList front).utf8ByteSize) back := by
  induction front generalizing offset with
  | nil => rfl
  | cons c front ih =>
    rw [List.cons_append, afterLineFeeds, afterLineFeeds, ih, utf8ByteSize_ofList_cons,
      Nat.add_assoc]
    by_cases hc : c = '\n' <;> simp [hc]

/-- Lines begin behind where the search for line feeds does, and within the text. -/
theorem bounds_of_mem_afterLineFeeds {offset start : Nat} {cs : List Char}
    (h : start ∈ afterLineFeeds offset cs) :
    offset < start ∧ start ≤ offset + (String.ofList cs).utf8ByteSize := by
  induction cs generalizing offset with
  | nil => cases h
  | cons c cs ih =>
    have hsize := c.utf8Size_pos
    rw [utf8ByteSize_ofList_cons]
    rw [afterLineFeeds] at h
    split at h
    · rcases List.mem_cons.1 h with rfl | h
      · omega
      · have := ih h
        omega
    · have := ih h
      omega

/-- The line starts up to an offset are those of what stands in front of it. -/
theorem takeWhile_offsets (front back : List Char) :
    (ofText (String.ofList (front ++ back))).offsets.takeWhile
        (· ≤ (String.ofList front).utf8ByteSize) = 0 :: afterLineFeeds 0 front := by
  have hfront : ∀ start ∈ 0 :: afterLineFeeds 0 front,
      decide (start ≤ (String.ofList front).utf8ByteSize) = true := by
    refine List.forall_mem_cons.2 ⟨by simp, fun start hstart => ?_⟩
    have := (bounds_of_mem_afterLineFeeds hstart).2
    simpa using this
  have hback : (afterLineFeeds (0 + (String.ofList front).utf8ByteSize) back).takeWhile
      (· ≤ (String.ofList front).utf8ByteSize) = [] := by
    cases hstarts : afterLineFeeds (0 + (String.ofList front).utf8ByteSize) back with
    | nil => rfl
    | cons start starts =>
      have hstart : start ∈ afterLineFeeds (0 + (String.ofList front).utf8ByteSize) back := by
        rw [hstarts]
        exact List.mem_cons_self
      have := (bounds_of_mem_afterLineFeeds hstart).1
      exact List.takeWhile_cons_of_neg (by simp only [decide_eq_true_eq]; omega)
  rw [ofText, String.toList_ofList, afterLineFeeds_append, ← List.cons_append,
    List.takeWhile_append_of_pos hfront, hback, List.append_nil]

/-- The last of the lines that begin in a text: its characters stand at the end, and it
starts behind all others. -/
theorem exists_lastLine (front : List Char) :
    ∃ lead, front = lead ++ (front.reverse.takeWhile (· ≠ '\n')).reverse ∧
      (0 :: afterLineFeeds 0 front).getLast? = some (String.ofList lead).utf8ByteSize := by
  induction front using List.reverseRecOn with
  | nil => exact ⟨[], rfl, by simp [afterLineFeeds]⟩
  | append_singleton front c ih =>
    obtain ⟨lead, hfront, hlast⟩ := ih
    rw [List.reverse_append, afterLineFeeds_append, ← List.cons_append]
    by_cases hc : c = '\n'
    · refine ⟨front ++ [c], by simp [hc], ?_⟩
      have hsize : (String.ofList (front ++ [c])).utf8ByteSize =
          (String.ofList front).utf8ByteSize + c.utf8Size := by
        rw [String.ofList_append, String.utf8ByteSize_append, utf8ByteSize_ofList_cons,
          String.ofList_nil, String.utf8ByteSize_empty, Nat.add_zero]
      rw [hsize, afterLineFeeds, if_pos hc, Nat.zero_add, afterLineFeeds, List.getLast?_concat]
    · refine ⟨lead, ?_, ?_⟩
      · conv_lhs => rw [hfront]
        simp [hc]
      · simpa [afterLineFeeds, hc] using hlast

/-- The position of an offset, by what stands in front of it. -/
theorem position_append (front back : List Char) :
    (ofText (String.ofList (front ++ back))).position (String.ofList (front ++ back))
      (String.ofList front).utf8ByteSize = Position.behind front := by
  obtain ⟨lead, hfront, hlast⟩ := exists_lastLine front
  have hstarts := takeWhile_offsets front back
  have hline : (ofText (String.ofList (front ++ back))).lineOf
      (String.ofList front).utf8ByteSize = front.count '\n' := by
    rw [lineOf, hstarts, List.length_cons, length_afterLineFeeds, Nat.add_sub_cancel]
  -- the starts that are passed are the first ones, and the line begins at the last of them
  have hstart : (ofText (String.ofList (front ++ back))).offsets.getD (front.count '\n') 0 =
      (String.ofList lead).utf8ByteSize := by
    rw [List.getLast?_eq_getElem?, List.length_cons, Nat.add_sub_cancel, length_afterLineFeeds,
      ← hstarts] at hlast
    obtain ⟨starts, hsplit⟩ := List.takeWhile_prefix (l := (ofText (String.ofList
      (front ++ back))).offsets) (· ≤ (String.ofList front).utf8ByteSize)
    rw [List.getD_eq_getElem?_getD, ← hsplit, List.getElem?_append_left, hlast, Option.getD_some]
    exact (List.getElem?_eq_some_iff.1 hlast).1
  have hsize : (String.ofList front).utf8ByteSize ≤
      (String.ofList (front ++ back)).utf8ByteSize := by
    rw [String.ofList_append, String.utf8ByteSize_append]
    exact Nat.le_add_right _ _
  have hlead : charactersBefore (String.ofList lead).utf8ByteSize (front ++ back) =
      some lead.length := by
    conv_lhs => rw [hfront, List.append_assoc]
    exact charactersBefore_append _ _
  have hlength : front.length = lead.length + (front.reverse.takeWhile (· ≠ '\n')).length := by
    conv_lhs => rw [hfront]
    rw [List.length_append, List.length_reverse]
  rw [position, hline, hstart, Nat.min_eq_left hsize, charactersBetween, String.toList_ofList,
    hlead, charactersBefore_append, Position.behind, hlength]
  simp

end LineStarts

/-! ## Agreement -/

/-- The position of a byte offset in a text. -/
def positionAt (text : String) (offset : Nat) : Position :=
  (LineStarts.ofText text).position text offset

theorem positionAt_append {text front back : String} (h : text = front ++ back) :
    positionAt text front.utf8ByteSize = Position.behind front.toList := by
  have happend := LineStarts.position_append front.toList back.toList
  rwa [← String.toList_append, String.ofList_toList, String.ofList_toList, ← h] at happend

/-- Of two places in a text, the one with the larger offset has the later position. -/
theorem positionAt_before {text front back front' back' : String} (h : text = front ++ back)
    (h' : text = front' ++ back') (hlt : front.utf8ByteSize < front'.utf8ByteSize) :
    (positionAt text front.utf8ByteSize).Before (positionAt text front'.utf8ByteSize) := by
  rw [positionAt_append h, positionAt_append h']
  have hcut : front.toList ++ back.toList = front'.toList ++ back'.toList := by
    rw [← String.toList_append, ← String.toList_append, ← h, ← h']
  rcases List.append_eq_append_iff.1 hcut with ⟨more, hmore, -⟩ | ⟨more, hmore, -⟩
  · rw [hmore]
    refine Position.behind_before _ ?_
    rintro rfl
    rw [List.append_nil, String.toList_inj] at hmore
    rw [hmore] at hlt
    exact Nat.lt_irrefl _ hlt
  · have hsize : front.utf8ByteSize = front'.utf8ByteSize + (String.ofList more).utf8ByteSize := by
      rw [← String.utf8ByteSize_append, ← String.ofList_toList (s := front), hmore,
        String.ofList_append, String.ofList_toList]
    omega

/-- What stands in front of a token gives its offset and its place. -/
theorem exists_front_of_mem_tokenize {text : String} {tokens : List Token}
    (h : tokenize text = .ok tokens) {t : Token} (ht : t ∈ tokens) :
    ∃ front back : String, text = front ++ (t.lexeme ++ back) ∧
      t.startOffset = front.utf8ByteSize ∧ t.start = Cursor.start.advanceAll front.toList := by
  obtain ⟨stretches, hlexed, rfl⟩ := tokenize_eq_ok_iff.1 h
  obtain ⟨front, s, back, rfl, heq, -⟩ := exists_stretch_of_mem_tokensOf ht
  refine ⟨String.ofList (joined front), String.ofList (joined back), ?_, ?_, ?_⟩
  · rw [heq, ← String.ofList_append, ← String.ofList_append, ← joined_append_cons,
      hlexed.joined_eq, String.ofList_toList]
  · rw [heq]
    exact Cursor.offset_start_advanceAll _
  · rw [heq, String.toList_ofList]

/-- A token stands at the position of its offset. -/
theorem positionAt_startOffset {text : String} {tokens : List Token}
    (h : tokenize text = .ok tokens) {t : Token} (ht : t ∈ tokens) :
    positionAt text t.startOffset = t.position := by
  obtain ⟨front, back, htext, hoffset, hstart⟩ := exists_front_of_mem_tokenize h ht
  rw [hoffset, positionAt_append htext, Token.position, hstart, Cursor.position_advanceAll]

/-- A token ends at the position of the offset behind it. -/
theorem positionAt_stopOffset {text : String} {tokens : List Token}
    (h : tokenize text = .ok tokens) {t : Token} (ht : t ∈ tokens) :
    positionAt text t.stopOffset = t.stop.position := by
  obtain ⟨front, back, htext, hoffset, hstart⟩ := exists_front_of_mem_tokenize h ht
  have hstop : t.stopOffset = (front ++ t.lexeme).utf8ByteSize := by
    rw [String.utf8ByteSize_append, ← hoffset]
    rfl
  rw [← String.append_assoc] at htext
  rw [hstop, positionAt_append htext, Token.stop, hstart, ← Cursor.advanceAll_append,
    Cursor.position_advanceAll, String.toList_append]

/-- Offsets, positions and lines of a text agree. -/
structure PlacesAgree (text : String) : Prop where
  /-- An offset that lies between characters has a line for each line feed in front of it and
  a column for each character behind the last of them. -/
  position_eq : ∀ offset : String.Pos.Raw, offset.IsValid text → ∃ front back,
    text = front ++ back ∧ offset.byteIdx = front.utf8ByteSize ∧
    positionAt text offset.byteIdx =
      ⟨front.toList.count '\n', (front.toList.reverse.takeWhile (· ≠ '\n')).length⟩
  /-- Larger offsets have later positions. -/
  increasing : ∀ offset other : String.Pos.Raw, offset.IsValid text → other.IsValid text →
    offset < other → (positionAt text offset.byteIdx).Before (positionAt text other.byteIdx)
  /-- A character that is no part of a line end stands in the line of its position, at the
  column of its position. -/
  character : ∀ front c back, text.toList = front ++ c :: back → c ≠ '\n' →
    ¬ (c = '\r' ∧ back.head? = some '\n') → ∀ line column,
    positionAt text (String.ofList front).utf8ByteSize = ⟨line, column⟩ →
    ∃ chars, lineText text line = .ok chars ∧ chars.toList[column]? = some c
  /-- Tokens stand at the positions of their offsets. -/
  tokens : ∀ tokens, tokenize text = .ok tokens → ∀ t ∈ tokens,
    positionAt text t.startOffset = t.position

/-- Offsets, positions and lines agree in every text. -/
theorem places_agree (text : String) : PlacesAgree text where
  position_eq offset hvalid := by
    obtain ⟨front, back, htext, rfl⟩ := String.Pos.Raw.isValid_iff_exists_append.1 hvalid
    exact ⟨front, back, htext, rfl, positionAt_append htext⟩
  increasing offset other hvalid hvalid' hlt := by
    obtain ⟨front, back, htext, rfl⟩ := String.Pos.Raw.isValid_iff_exists_append.1 hvalid
    obtain ⟨front', back', htext', rfl⟩ := String.Pos.Raw.isValid_iff_exists_append.1 hvalid'
    exact positionAt_before htext htext' hlt
  character front c back htext hlf hcr line column hplace := by
    have hsplit : text = String.ofList front ++ String.ofList (c :: back) := by
      rw [← String.ofList_append, ← htext, String.ofList_toList]
    rw [positionAt_append hsplit, String.toList_ofList, ← Cursor.position_advanceAll] at hplace
    have hother : ∀ more, c = '\r' → back ≠ '\n' :: more := by
      rintro more hc rfl
      exact hcr ⟨hc, rfl⟩
    obtain ⟨lead, rest, hline, hlength⟩ := standsInLine_char front hlf hother
    obtain ⟨rfl, rfl⟩ := Position.mk.inj hplace
    refine ⟨String.ofList (lead ++ ([c] ++ rest)), ?_, ?_⟩
    · rw [lineText, line?, htext, ← List.singleton_append, hline]
    · rw [String.toList_ofList, ← hlength]
      simp
  tokens tokens h t ht := positionAt_startOffset h ht

end SymbolAtlas
