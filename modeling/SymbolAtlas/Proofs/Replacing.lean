import SymbolAtlas.Proofs.Relexing

/-!
# Replacing names in a text

A name is put in the place of given spans of a text, and what stands behind them
in their lines moves.  When the spans are extents of identifier tokens and the
new name is an identifier, the new text has the same tokens, up to the replaced
ones, at the places to which they have moved.

## Main Definitions

* `replaceSpans`: the text with a new name in the place of some spans.
* `movedColumn`, `Span.moved`: where columns and spans of the text move to.
* `Relabels`: what becomes of a token.

## Main Statements

* `tokenize_replaceSpans`: the tokens of the new text.
-/

namespace SymbolAtlas

/-- Whether a span covers the character at a place. -/
def Span.covers (s : Span) (p : Position) : Bool :=
  s.line == p.line && s.start ≤ p.column && p.column < s.stop

/-- What the character at a place becomes: the new name at the beginning of a
span, and nothing further on in it. -/
def replacedChar (spans : List Span) (new : List Char) (p : Position) (c : Char) : List Char :=
  match spans.find? (·.covers p) with
  | none => [c]
  | some s => if s.start = p.column then new else []

/-- A text that begins at a place, with a new name in the place of spans. -/
def replaceFrom (spans : List Span) (new : List Char) : Cursor → List Char → List Char
  | _, [] => []
  | place, c :: rest =>
    replacedChar spans new place.position c ++ replaceFrom spans new (place.advance c) rest

/-- A text with a new name in the place of spans. -/
def replaceSpans (spans : List Span) (new text : String) : String :=
  String.ofList (replaceFrom spans new.toList .start text.toList)

/-- How many characters the character at a place becomes, when the new name has
`width` characters. -/
def replacedWidth (spans : List Span) (width : Nat) (p : Position) : Nat :=
  match spans.find? (·.covers p) with
  | none => 1
  | some s => if s.start = p.column then width else 0

/-- Where a column of a line moves to. -/
def movedColumn (spans : List Span) (width line : Nat) : Nat → Nat
  | 0 => 0
  | column + 1 => movedColumn spans width line column + replacedWidth spans width ⟨line, column⟩

/-- Where a span moves to. -/
def Span.moved (spans : List Span) (width : Nat) (s : Span) : Span :=
  ⟨s.line, movedColumn spans width s.line s.start, movedColumn spans width s.line s.stop⟩

theorem Span.covers_iff {s : Span} {p : Position} :
    s.covers p = true ↔ s.line = p.line ∧ s.start ≤ p.column ∧ p.column < s.stop := by
  simp [covers, and_assoc]

/-! ## Moving along both texts -/

section Following

variable {spans : List Span} {new : List Char}

theorem replaceFrom_append (place : Cursor) (cs ds : List Char) :
    replaceFrom spans new place (cs ++ ds) =
      replaceFrom spans new place cs ++ replaceFrom spans new (place.advanceAll cs) ds := by
  induction cs generalizing place with
  | nil => rfl
  | cons c cs ih =>
    rw [List.cons_append, replaceFrom, ih, ← List.append_assoc]
    rfl

theorem length_replacedChar (p : Position) (c : Char) :
    (replacedChar spans new p c).length = replacedWidth spans new.length p := by
  unfold replacedChar replacedWidth
  cases spans.find? (·.covers p) with
  | none => rfl
  | some s => by_cases hs : s.start = p.column <;> simp [hs]

theorem replacedChar_of_uncovered {p : Position} (h : ∀ s ∈ spans, s.covers p = false) (c : Char) :
    replacedChar spans new p c = [c] := by
  have hfind : spans.find? (·.covers p) = none := List.find?_eq_none.2 fun s hs => by simp [h s hs]
  simp [replacedChar, hfind]

/-- A cursor in the new text is where the cursor in the old text has moved to. -/
structure Follows (spans : List Span) (width : Nat) (place place' : Cursor) : Prop where
  line : place'.line = place.line
  column : place'.column = movedColumn spans width place.line place.column

/-- No line feed is covered by the spans. -/
def SparesFeeds (spans : List Span) (place : Cursor) (cs : List Char) : Prop :=
  ∀ front back, cs = front ++ '\n' :: back →
    ∀ s ∈ spans, s.covers (place.advanceAll front).position = false

theorem Follows.advance (hnew : IsClean new) {place place' : Cursor}
    (h : Follows spans new.length place place') {c : Char}
    (hfeed : c = '\n' → ∀ s ∈ spans, s.covers place.position = false) :
    Follows spans new.length (place.advance c)
      (place'.advanceAll (replacedChar spans new place.position c)) := by
  by_cases hc : c = '\n'
  · rw [replacedChar_of_uncovered (hfeed hc)]
    simp only [Cursor.advanceAll_cons, Cursor.advanceAll_nil, Cursor.advance, hc, if_true]
    exact ⟨by rw [h.line], rfl⟩
  · have hclean : IsClean (replacedChar spans new place.position c) ∨
        replacedChar spans new place.position c = [c] := by
      unfold replacedChar
      cases spans.find? (·.covers place.position) with
      | none => exact .inr rfl
      | some s =>
        left
        simp only
        split
        · exact hnew
        · exact List.forall_mem_nil _
    have hmoved : (place'.advanceAll (replacedChar spans new place.position c)).line = place'.line ∧
        (place'.advanceAll (replacedChar spans new place.position c)).column =
          place'.column + (replacedChar spans new place.position c).length := by
      rcases hclean with hclean | heq
      · exact Cursor.advanceAll_of_clean hclean place'
      · rw [heq]
        simp [Cursor.advance, hc]
    rw [length_replacedChar] at hmoved
    simp only [Cursor.advance, hc, if_false]
    refine ⟨hmoved.1.trans h.line, ?_⟩
    rw [hmoved.2, h.column]
    rfl

theorem Follows.advanceAll (hnew : IsClean new) {place place' : Cursor}
    (h : Follows spans new.length place place') {cs : List Char}
    (hfeeds : SparesFeeds spans place cs) :
    Follows spans new.length (place.advanceAll cs)
      (place'.advanceAll (replaceFrom spans new place cs)) := by
  induction cs generalizing place place' with
  | nil => exact h
  | cons c cs ih =>
    have hfeed : c = '\n' → ∀ s ∈ spans, s.covers place.position = false := by
      rintro rfl
      exact hfeeds [] cs rfl
    have hrest : SparesFeeds spans (place.advance c) cs := by
      rintro front back rfl
      exact hfeeds (c :: front) back rfl
    rw [Cursor.advanceAll_cons, replaceFrom, Cursor.advanceAll_append]
    exact ih (h.advance hnew hfeed) hrest

/-- Nothing changes where nothing is covered. -/
theorem replaceFrom_of_uncovered {place : Cursor} {cs : List Char}
    (h : ∀ front c back, cs = front ++ c :: back →
      ∀ s ∈ spans, s.covers (place.advanceAll front).position = false) :
    replaceFrom spans new place cs = cs := by
  induction cs generalizing place with
  | nil => rfl
  | cons c cs ih =>
    have hrest : replaceFrom spans new (place.advance c) cs = cs := by
      refine ih ?_
      rintro front d back rfl
      exact h (c :: front) d back rfl
    have hfirst : replacedChar spans new place.position c = [c] :=
      replacedChar_of_uncovered (h [] c cs rfl) c
    rw [replaceFrom, hfirst, hrest]
    rfl

/-- Where there is nothing to replace, a text stays as it is. -/
theorem replaceSpans_nil (new text : String) : replaceSpans [] new text = text := by
  have hnone : ∀ front c back, text.toList = front ++ c :: back → ∀ s ∈ ([] : List Span),
      s.covers (Cursor.start.advanceAll front).position = false := by simp
  rw [replaceSpans, replaceFrom_of_uncovered hnone, String.ofList_toList]

/-- Further on in a span all characters vanish. -/
theorem replaceFrom_of_inside {place : Cursor} {cs : List Char} (span : Span)
    (h : ∀ front c back, cs = front ++ c :: back →
      spans.find? (·.covers (place.advanceAll front).position) = some span)
    (hline : IsClean cs) (hstart : span.start < place.column) :
    replaceFrom spans new place cs = [] := by
  induction cs generalizing place with
  | nil => rfl
  | cons c cs ih =>
    have hfeed : c ≠ '\n' := (hline c List.mem_cons_self).1
    have hrest : replaceFrom spans new (place.advance c) cs = [] := by
      refine ih ?_ hline.tail ?_
      · rintro front d back rfl
        exact h (c :: front) d back rfl
      · simp only [Cursor.advance, hfeed, if_false]
        omega
    have hfirst : spans.find? (·.covers place.position) = some span := h [] c cs rfl
    have hne : span.start ≠ place.position.column := Nat.ne_of_lt hstart
    rw [replaceFrom, hrest, List.append_nil, replacedChar, hfirst]
    simp only [hne, if_false]

end Following

/-! ## Replacing stretches -/

/-- A span ends at a place or in front of it. -/
def Span.EndsBy (s : Span) (place : Cursor) : Prop :=
  s.line < place.line ∨ s.line = place.line ∧ s.stop ≤ place.column

/-- The extent of a stretch that begins at a place. -/
def Stretch.span (s : Stretch) (place : Cursor) : Span :=
  .ofName place.position (String.ofList s.chars)

/-- A stretch that begins at a place is one to replace. -/
def Stretch.Marked (spans : List Span) (place : Cursor) (s : Stretch) : Prop :=
  s.kind = some .identifier ∧ s.span place ∈ spans

instance (spans : List Span) (place : Cursor) (s : Stretch) : Decidable (s.Marked spans place) :=
  inferInstanceAs (Decidable (s.kind = some .identifier ∧ s.span place ∈ spans))

/-- What a stretch becomes. -/
def Stretch.replaced (spans : List Span) (new : List Char) (place : Cursor) (s : Stretch) :
    Stretch :=
  if s.Marked spans place then ⟨s.kind, new⟩ else s

/-- What stretches become, the first of which begins at a place. -/
def replacedStretches (spans : List Span) (new : List Char) : Cursor → List Stretch → List Stretch
  | _, [] => []
  | place, s :: rest =>
    s.replaced spans new place :: replacedStretches spans new (place.advanceAll s.chars) rest

/-- Spans are extents of identifiers among the stretches from a place on, except
for those that end in front of it. -/
def MarksFrom (spans : List Span) (place : Cursor) (stretches : List Stretch) : Prop :=
  ∀ span ∈ spans, span.EndsBy place ∨
    ∃ t ∈ tokensOf place stretches, t.kind = .identifier ∧ t.identifier.span = span

section Marked

variable {spans : List Span} {new : List Char} {place : Cursor} {s : Stretch}
  {stretches : List Stretch}

theorem Cursor.AtOrBefore.endsBy {span : Span} {place place' : Cursor} (h : place.AtOrBefore place')
    (hspan : span.EndsBy place) : span.EndsBy place' := by
  simp only [Cursor.AtOrBefore, Span.EndsBy] at *
  omega

theorem mem_tokens_identifier {t : Token} (ht : t ∈ s.tokens place) (hkind : t.kind = .identifier) :
    s.kind = some .identifier ∧ t.identifier.span = s.span place := by
  simp only [Stretch.tokens, Option.mem_toList, Option.map_eq_some_iff] at ht
  obtain ⟨kind, hs, rfl⟩ := ht
  obtain rfl : kind = .identifier := hkind
  exact ⟨hs, rfl⟩

/-- Only the extent of the stretch itself covers something of it. -/
theorem MarksFrom.eq_of_covers (h : MarksFrom spans place (s :: stretches)) {span : Span}
    (hspan : span ∈ spans) {front back : List Char} {c : Char}
    (hchars : s.chars = front ++ c :: back)
    (hcovers : span.covers (place.advanceAll front).position = true) :
    s.kind = some .identifier ∧ span = s.span place := by
  have hbefore := Cursor.atOrBefore_advanceAll place front
  have hinside : (place.advanceAll front).Before (place.advanceAll s.chars) := by
    rw [hchars, Cursor.advanceAll_append]
    exact Cursor.before_advanceAll _ (List.cons_ne_nil c back)
  simp only [Span.covers_iff, Cursor.position] at hcovers
  rcases h span hspan with hends | ⟨t, ht, hkind, rfl⟩
  · simp only [Span.EndsBy, Cursor.AtOrBefore] at hends hbefore
    omega
  · rcases List.mem_append.1 ht with ht | ht
    · exact mem_tokens_identifier ht hkind
    · have hafter := atOrBefore_of_mem_tokensOf ht
      have hstart := hinside.trans_atOrBefore hafter
      simp only [Cursor.Before, Token.identifier, Span.ofName, Token.position, Cursor.position]
        at hstart hcovers
      omega

/-- Behind a stretch the spans are still extents of identifiers. -/
theorem MarksFrom.tail (h : MarksFrom spans place (s :: stretches))
    (hword : s.kind = some .identifier → IsIdentifier s.chars) :
    MarksFrom spans (place.advanceAll s.chars) stretches := by
  intro span hspan
  rcases h span hspan with hends | ⟨t, ht, hkind, rfl⟩
  · exact .inl ((Cursor.atOrBefore_advanceAll place s.chars).endsBy hends)
  · rcases List.mem_append.1 ht with ht | ht
    · obtain ⟨hs, heq⟩ := mem_tokens_identifier ht hkind
      obtain ⟨hline, hcolumn⟩ := Cursor.advanceAll_of_clean (hword hs).isClean place
      left
      rw [heq, Span.EndsBy, hline, hcolumn]
      simp [Stretch.span, Span.ofName, Cursor.position]
    · exact .inr ⟨t, ht, hkind, rfl⟩

/-- In a marked stretch every character is covered by its extent. -/
theorem MarksFrom.find?_covers (h : MarksFrom spans place (s :: stretches))
    (hword : IsIdentifier s.chars) (hmarked : s.Marked spans place) (front : List Char) {c : Char}
    {back : List Char} (hchars : s.chars = front ++ c :: back) :
    spans.find? (·.covers (place.advanceAll front).position) = some (s.span place) := by
  have hfront : IsClean front := fun x hx => hword.isClean x (by simp [hchars, hx])
  obtain ⟨hline, hcolumn⟩ := Cursor.advanceAll_of_clean hfront place
  have hcovers : (s.span place).covers (place.advanceAll front).position = true := by
    simp only [Span.covers_iff, Stretch.span, Span.ofName, Cursor.position, hline, hcolumn, hchars,
      String.length_ofList, List.length_append, List.length_cons, true_and]
    omega
  cases hfind : spans.find? (·.covers (place.advanceAll front).position) with
  | none => exact absurd hcovers (List.find?_eq_none.1 hfind _ hmarked.2)
  | some span =>
    have hspan := List.find?_some hfind
    rw [(h.eq_of_covers (List.mem_of_find?_eq_some hfind) hchars hspan).2]

/-- What replacing does to a stretch. -/
theorem MarksFrom.replaceFrom_chars (h : MarksFrom spans place (s :: stretches))
    (hword : s.kind = some .identifier → IsIdentifier s.chars) :
    replaceFrom spans new place s.chars = (s.replaced spans new place).chars := by
  unfold Stretch.replaced
  by_cases hmarked : s.Marked spans place
  · rw [if_pos hmarked]
    have hidentifier := hword hmarked.1
    have hfound := h.find?_covers hidentifier hmarked
    cases hchars : s.chars with
    | nil => exact absurd hchars hidentifier.ne_nil
    | cons c tail =>
      have hclean := hidentifier.isClean
      rw [hchars] at hfound hclean
      have hfeed : c ≠ '\n' := (hclean c List.mem_cons_self).1
      have hfirst : replacedChar spans new place.position c = new := by
        have hfind : spans.find? (·.covers place.position) = some (s.span place) :=
          hfound [] rfl
        simp [replacedChar, hfind, Stretch.span, Span.ofName]
      have hrest : replaceFrom spans new (place.advance c) tail = [] := by
        refine replaceFrom_of_inside (s.span place) ?_ hclean.tail ?_
        · rintro front d back rfl
          exact hfound (c :: front) rfl
        · simp [Stretch.span, Span.ofName, Cursor.position, Cursor.advance, hfeed]
      rw [replaceFrom, hfirst, hrest, List.append_nil]
  · rw [if_neg hmarked]
    refine replaceFrom_of_uncovered fun front c back hchars span hspan => ?_
    rw [← Bool.not_eq_true]
    intro hcovers
    obtain ⟨hkind, rfl⟩ := h.eq_of_covers hspan hchars hcovers
    exact hmarked ⟨hkind, hspan⟩

/-- Line feeds are not replaced. -/
theorem MarksFrom.sparesFeeds (h : MarksFrom spans place (s :: stretches))
    (hword : s.kind = some .identifier → IsIdentifier s.chars) :
    SparesFeeds spans place s.chars := by
  intro front back hchars span hspan
  rw [← Bool.not_eq_true]
  intro hcovers
  obtain ⟨hkind, -⟩ := h.eq_of_covers hspan hchars hcovers
  exact ((hword hkind).isClean '\n' (by simp [hchars])).1 rfl

end Marked

/-! ## The tokens of the new text -/

/-- What becomes of a token. -/
structure Relabels (spans : List Span) (new : String) (t t' : Token) : Prop where
  kind : t'.kind = t.kind
  lexeme : t'.lexeme =
    if t.kind = .identifier ∧ t.identifier.span ∈ spans then new else t.lexeme
  span : t.kind = .identifier → t'.identifier.span = t.identifier.span.moved spans new.length

section Tokens

variable {spans : List Span} {new : String} {place place' : Cursor}

/-- What becomes of the token that a stretch is. -/
theorem relabels_tokens {s : Stretch} {stretches : List Stretch} (hnew : IsIdentifier new.toList)
    (hmarks : MarksFrom spans place (s :: stretches))
    (hword : s.kind = some .identifier → IsIdentifier s.chars)
    (hfollows : Follows spans new.length place place') :
    List.Forall₂ (Relabels spans new) (s.tokens place)
      ((s.replaced spans new.toList place).tokens place') := by
  have hkept : (s.replaced spans new.toList place).kind = s.kind := by
    unfold Stretch.replaced
    split <;> rfl
  unfold Stretch.tokens
  rw [hkept]
  cases hkind : s.kind with
  | none => exact .nil
  | some kind =>
    refine .cons ⟨rfl, ?_, fun hidentifier => ?_⟩ .nil
    · have hmarked : s.Marked spans place ↔ kind = .identifier ∧ s.span place ∈ spans := by
        rw [Stretch.Marked, hkind, Option.some.injEq]
      show String.ofList (s.replaced spans new.toList place).chars =
        if kind = .identifier ∧ s.span place ∈ spans then new else String.ofList s.chars
      by_cases h : s.Marked spans place
      · rw [Stretch.replaced, if_pos h, if_pos (hmarked.1 h), String.ofList_toList]
      · rw [Stretch.replaced, if_neg h, if_neg (mt hmarked.2 h)]
    · obtain rfl : kind = .identifier := hidentifier
      -- both ends of the token have moved to where the cursors say
      have hclean : IsClean (s.replaced spans new.toList place).chars := by
        unfold Stretch.replaced
        split
        · exact hnew.isClean
        · exact (hword hkind).isClean
      have hend := hfollows.advanceAll hnew.isClean (hmarks.sparesFeeds hword)
      rw [hmarks.replaceFrom_chars hword] at hend
      obtain ⟨hline, hcolumn⟩ := Cursor.advanceAll_of_clean (hword hkind).isClean place
      obtain ⟨-, hcolumn'⟩ := Cursor.advanceAll_of_clean hclean place'
      have hstop := hend.column
      rw [hcolumn', hline, hcolumn, String.length_toList] at hstop
      simp only [Token.identifier, Span.ofName, Token.position, Cursor.position, Span.moved,
        String.length_ofList, hfollows.line, hstop, ← hfollows.column]

theorem relabels_tokensOf {stretches : List Stretch} (hnew : IsIdentifier new.toList)
    (hmarks : MarksFrom spans place stretches)
    (hwords : ∀ s ∈ stretches, s.kind = some .identifier → IsIdentifier s.chars)
    (hfollows : Follows spans new.length place place') :
    replaceFrom spans new.toList place (joined stretches) =
        joined (replacedStretches spans new.toList place stretches) ∧
      List.Forall₂ (Relabels spans new) (tokensOf place stretches)
        (tokensOf place' (replacedStretches spans new.toList place stretches)) := by
  induction stretches generalizing place place' with
  | nil => exact ⟨rfl, .nil⟩
  | cons s stretches ih =>
    obtain ⟨hword, hothers⟩ := List.forall_mem_cons.1 hwords
    have hchars : replaceFrom spans new.toList place s.chars =
        (s.replaced spans new.toList place).chars := hmarks.replaceFrom_chars hword
    have hnext := hfollows.advanceAll hnew.isClean (hmarks.sparesFeeds hword)
    rw [hchars] at hnext
    obtain ⟨htext, htokens⟩ := ih (hmarks.tail hword) hothers hnext
    constructor
    · rw [joined, List.flatMap_cons, ← joined, replaceFrom_append, hchars, htext]
      rfl
    · exact List.rel_append (relabels_tokens hnew hmarks hword hfollows) htokens

end Tokens

theorem replaces_replacedStretches {spans : List Span} {new : List Char} (hnew : IsIdentifier new)
    (place : Cursor) (stretches : List Stretch) :
    List.Forall₂ Replaces stretches (replacedStretches spans new place stretches) := by
  induction stretches generalizing place with
  | nil => exact .nil
  | cons s stretches ih =>
    refine .cons ?_ (ih _)
    unfold Stretch.replaced
    split
    · next hmarked => exact .inr ⟨hmarked.1, hmarked.1, hnew⟩
    · exact .inl rfl

/-- A text in which extents of identifier tokens are replaced by an identifier has
the same tokens, relabelled and moved. -/
theorem tokenize_replaceSpans {text new : String} {tokens : List Token} {spans : List Span}
    (h : tokenize text = .ok tokens) (hnew : IsIdentifier new.toList)
    (hspans : ∀ span ∈ spans, ∃ t ∈ tokens, t.kind = .identifier ∧ t.identifier.span = span) :
    ∃ tokens', tokenize (replaceSpans spans new text) = .ok tokens' ∧
      List.Forall₂ (Relabels spans new) tokens tokens' := by
  obtain ⟨stretches, hlexed, rfl⟩ := tokenize_eq_ok_iff.1 h
  have hmarks : MarksFrom spans .start stretches := fun span hspan => .inr (hspans span hspan)
  have hfollows : Follows spans new.length .start .start := ⟨rfl, rfl⟩
  obtain ⟨htext, htokens⟩ :=
    relabels_tokensOf hnew hmarks (fun s hs => hlexed.isIdentifier hs) hfollows
  obtain ⟨hlexed', -⟩ := hlexed.replace (replaces_replacedStretches hnew .start stretches)
  refine ⟨_, tokenize_eq_ok_iff.2 ⟨_, ?_, rfl⟩, htokens⟩
  rwa [replaceSpans, String.toList_ofList, ← hlexed.joined_eq, htext]

end SymbolAtlas
