import Mathlib.Data.List.Forall2
import SymbolAtlas.Proofs.Stretches

/-!
# Reading a text with other identifiers in it

A lexeme ends where the characters behind it say so, and they say so in the same
way when an identifier behind it is replaced by another: all words begin alike,
and only numbers look two characters ahead.  So a text in which identifiers are
replaced by identifiers is cut into the same stretches, up to the replaced ones.

## Main Definitions

* `LooksLike`: two texts end a lexeme in front of them in the same way.
* `EndsTokens`: two texts end a token in front of them in the same way.
* `Replaces`: a stretch stays, or is an identifier that becomes another.

## Main Statements

* `firstLexeme_token_congr`, `firstLexeme_congr`: the first token and the first lexeme of a
  text are kept when what follows ends them in the same way.
* `LexedAs.replace`: a text with other identifiers is cut in the same way.
-/

namespace SymbolAtlas

/-! ## Beginnings of texts -/

/-- Two texts begin alike: with the same character, or both with a word. -/
def Alike (a b : Option Char) : Prop :=
  a = b ∨ ∃ x y, a = some x ∧ b = some y ∧ isWordStart x = true ∧ isWordStart y = true

/-- Two texts end a lexeme in front of them in the same way. -/
structure LooksLike (rest rest' : List Char) : Prop where
  first : Alike rest.head? rest'.head?
  /-- Behind a dot a number looks at one more character. -/
  second : rest.head? = some '.' → Alike rest.tail.head? rest'.tail.head?

/-- What is the same for all words is the same for texts that begin alike. -/
theorem Alike.any_eq {a b : Option Char} (h : Alike a b) {p : Char → Bool} {value : Bool}
    (hp : ∀ c, isWordStart c = true → p c = value) : a.any p = b.any p := by
  rcases h with rfl | ⟨x, y, rfl, rfl, hx, hy⟩
  · rfl
  · simp [hp x hx, hp y hy]

section Words

variable {c : Char}

theorem isBlank_of_isWordStart (h : isWordStart c = true) : isBlank c = false := by
  rw [← Bool.not_eq_true]
  intro hblank
  simp only [isBlank, Bool.or_eq_true, beq_iff_eq] at hblank
  rcases hblank with (((rfl | rfl) | rfl) | rfl) | rfl <;> exact absurd h (by decide)

theorem isDigitChar_of_isWordStart (h : isWordStart c = true) : isDigitChar c = false := by
  simp only [isWordStart, isLetter, isDigitChar, Bool.or_eq_true, Bool.and_eq_true,
    decide_eq_true_eq, beq_iff_eq, Bool.and_eq_false_iff, decide_eq_false_iff_not, Char.reduceToNat]
    at h ⊢
  rcases h with h | rfl
  · omega
  · decide

theorem ne_of_isWordStart {other : Char} (hother : isWordStart other = false)
    (h : isWordStart c = true) : c ≠ other := by
  rintro rfl
  rw [h] at hother
  cases hother

end Words

/-- A character that begins no word is the same in texts that begin alike. -/
theorem Alike.eq_some {a b : Option Char} (h : Alike a b) {c : Char} (hc : isWordStart c = false)
    (hb : b = some c) : a = some c := by
  rcases h with rfl | ⟨x, y, -, hy, -, hstart⟩
  · exact hb
  · obtain rfl := Option.some.inj (hy.symm.trans hb)
    rw [hc] at hstart
    cases hstart

/-- Two texts end a token in front of them in the same way: both of them continue a word or a
number, or none does, and the second opens no comment behind a slash unless the first does. -/
structure EndsTokens (rest rest' : List Char) : Prop where
  word : rest.head?.any isWordChar = rest'.head?.any isWordChar
  digit : rest.head?.any isDigitChar = rest'.head?.any isDigitChar
  fraction : rest'.head? = some '.' → rest.head? = some '.' ∧
    rest.tail.head?.any isDigitChar = rest'.tail.head?.any isDigitChar
  slash : rest'.head? = some '/' → rest.head? = some '/'
  star : rest'.head? = some '*' → rest.head? = some '*'

theorem LooksLike.endsTokens {rest rest' : List Char} (h : LooksLike rest rest') :
    EndsTokens rest rest' where
  word := h.first.any_eq fun _ => isWordChar_of_isWordStart
  digit := h.first.any_eq fun _ => isDigitChar_of_isWordStart
  fraction hdot := by
    have hdot' := h.first.eq_some (by decide) hdot
    exact ⟨hdot', (h.second hdot').any_eq fun _ => isDigitChar_of_isWordStart⟩
  slash := h.first.eq_some (by decide)
  star := h.first.eq_some (by decide)

/-! ## Lexemes that stay -/

/-- A run of characters ends where the characters stop to be such. -/
theorem length_takeWhile_append_iff {α : Type} {p : α → Bool} {front back : List α} :
    ((front ++ back).takeWhile p).length = front.length ↔
      front.all p = true ∧ back.head?.any p = false := by
  induction front with
  | nil =>
    cases back with
    | nil => simp
    | cons b back => by_cases hb : p b = true <;> simp [hb]
  | cons a front ih => by_cases ha : p a = true <;> simp [ha, ih]

theorem takeWhile_append_of_length {α : Type} {p : α → Bool} {front back : List α}
    (h : ((front ++ back).takeWhile p).length = front.length) :
    (front ++ back).takeWhile p = front :=
  (List.prefix_of_prefix_length_le (List.takeWhile_prefix p) (List.prefix_append front back)
    (Nat.le_of_eq h)).eq_of_length h

/-- A run of characters stays as long as it is not continued. -/
theorem length_takeWhile_congr {p : Char → Bool} {tail rest rest' : List Char}
    (hnext : rest.head?.any p = rest'.head?.any p)
    (h : ((tail ++ rest).takeWhile p).length = tail.length) :
    ((tail ++ rest').takeWhile p).length = tail.length := by
  rw [length_takeWhile_append_iff] at h ⊢
  rwa [← hnext]

theorem fractionLength_eq_zero_iff {rest : List Char} :
    fractionLength rest = 0 ↔
      (rest.head? = some '.' → rest.tail.head?.any isDigitChar = false) := by
  unfold fractionLength
  split
  · next rest =>
    cases rest with
    | nil => simp
    | cons c rest => by_cases hc : isDigitChar c = true <;> simp [hc]
  · next hdot =>
    cases rest with
    | nil => simp
    | cons c rest =>
      have hc : c ≠ '.' := fun heq => hdot rest (by rw [heq])
      simp [hc]

/-- A fraction stays as long as no digit continues it. -/
theorem fractionLength_congr {c : Char} {tail rest rest' : List Char}
    (hends : EndsTokens rest rest')
    (h : fractionLength (c :: (tail ++ rest)) = tail.length + 1) :
    fractionLength (c :: (tail ++ rest')) = tail.length + 1 := by
  by_cases hc : c = '.'
  · subst hc
    simp only [fractionLength] at h ⊢
    split at h
    · cases h
    · next hdigits =>
      have hlength : ((tail ++ rest).takeWhile isDigitChar).length = tail.length := by omega
      have hlength' := length_takeWhile_congr hends.digit hlength
      rw [if_neg (by omega), hlength']
  · have hzero : fractionLength (c :: (tail ++ rest)) = 0 :=
      fractionLength_eq_zero_iff.2 (by simp [hc])
    omega

theorem numberLength_append {word rest : List Char} (h : ∀ c ∈ word, isWordChar c = true) :
    numberLength (word ++ rest) = word.length + numberLength rest := by
  unfold numberLength
  rw [List.takeWhile_append_of_pos h, List.dropWhile_append_of_pos h, List.length_append]
  omega

theorem numberLength_of_not_isWordChar {rest : List Char}
    (h : rest.head?.any isWordChar = false) : numberLength rest = fractionLength rest := by
  unfold numberLength
  cases rest with
  | nil => simp
  | cons c rest =>
    have hc : isWordChar c = false := by simpa using h
    simp [hc]

/-- A number stays as long as neither its word nor its fraction is continued. -/
theorem numberLength_congr {tail rest rest' : List Char} (hends : EndsTokens rest rest')
    (h : numberLength (tail ++ rest) = tail.length) :
    numberLength (tail ++ rest') = tail.length := by
  have hsplit : tail = tail.takeWhile isWordChar ++ tail.dropWhile isWordChar :=
    List.takeWhile_append_dropWhile.symm
  have hword : ∀ c ∈ tail.takeWhile isWordChar, isWordChar c = true :=
    List.all_eq_true.1 List.all_takeWhile
  rw [hsplit, List.append_assoc, numberLength_append hword, List.length_append,
    Nat.add_left_cancel_iff] at h ⊢
  cases hdrop : tail.dropWhile isWordChar with
  | nil =>
    -- the number ends with its word
    rw [hdrop, List.nil_append] at h
    have hhead : rest.head?.any isWordChar = false := by
      rw [← Bool.not_eq_true]
      intro hany
      cases rest with
      | nil => cases hany
      | cons c rest =>
        have hc : isWordChar c = true := by simpa using hany
        simp [numberLength, hc] at h
    rw [numberLength_of_not_isWordChar hhead, List.length_nil, fractionLength_eq_zero_iff] at h
    have hhead' := hhead
    rw [hends.word] at hhead'
    rw [List.nil_append, numberLength_of_not_isWordChar hhead', List.length_nil,
      fractionLength_eq_zero_iff]
    intro hdot
    obtain ⟨hdot', hdigit⟩ := hends.fraction hdot
    rw [← hdigit]
    exact h hdot'
  | cons c front =>
    -- the number ends with its fraction
    have hc : isWordChar c = false := by
      have := List.head?_dropWhile_not isWordChar tail
      rw [hdrop] at this
      simpa using this
    rw [hdrop, List.cons_append, numberLength_of_not_isWordChar (by simpa using hc)] at h
    rw [List.cons_append, numberLength_of_not_isWordChar (by simpa using hc)]
    exact fractionLength_congr hends h

/-- A quoted string ends with its quote, whatever follows. -/
theorem quotedLength_take {text : List Char} {n : Nat} (h : quotedLength text = some n)
    (rest : List Char) :
    n ≤ text.length ∧ quotedLength (text.take n ++ rest) = some n := by
  fun_induction quotedLength text generalizing n with
  | case1 => cases h
  | case2 => cases h; simp [quotedLength]
  | case3 => cases h
  | case4 c more hc ih =>
    obtain ⟨k, hk, rfl⟩ := Option.map_eq_some_iff.1 h
    obtain ⟨hle, htake⟩ := ih hk
    simp [quotedLength, hc, htake, hle]
  | case5 => cases h
  | case6 c more hquote hescape hc ih =>
    obtain ⟨k, hk, rfl⟩ := Option.map_eq_some_iff.1 h
    obtain ⟨hle, htake⟩ := ih hk
    refine ⟨by simpa using hle, ?_⟩
    rw [List.take_succ_cons, List.cons_append, quotedLength, if_neg hc, htake]
    · rfl
    · exact hquote
    · rintro d back rfl -
      simp at hc

theorem commentLength_ne_zero (text : List Char) : commentLength text ≠ some 0 := by
  fun_cases commentLength text with
  | case1 => exact nofun
  | case2 => simp
  | case3 => exact nofun

/-- A comment ends with the first star-slash, whatever follows. -/
theorem commentLength_take {text : List Char} {n : Nat} (h : commentLength text = some n)
    (rest : List Char) :
    n ≤ text.length ∧ commentLength (text.take n ++ rest) = some n := by
  fun_induction commentLength text generalizing n with
  | case1 => cases h; simp [commentLength]
  | case2 c more hstar ih =>
    obtain ⟨k, hk, rfl⟩ := Option.map_eq_some_iff.1 h
    obtain ⟨hle, htake⟩ := ih hk
    refine ⟨by simpa using hle, ?_⟩
    rw [List.take_succ_cons, List.cons_append, commentLength, htake]
    · rfl
    · -- the body of a comment is not empty, so its first character stays
      rintro back rfl hback
      cases more with
      | nil => cases hk
      | cons d more =>
        cases k with
        | zero => exact absurd hk (commentLength_ne_zero _)
        | succ k =>
          obtain ⟨rfl, -⟩ := List.cons.inj hback
          exact hstar more rfl rfl
  | case3 => cases h

theorem numberLength_le_length (rest : List Char) : numberLength rest ≤ rest.length := by
  have hfraction : ∀ text : List Char, fractionLength text ≤ text.length := by
    intro text
    unfold fractionLength
    split
    · next rest =>
      have hrun := (List.takeWhile_prefix isDigitChar (l := rest)).length_le
      rw [List.length_cons]
      dsimp only
      split <;> omega
    · exact Nat.zero_le _
  calc numberLength rest
      ≤ (rest.takeWhile isWordChar).length + (rest.dropWhile isWordChar).length :=
        Nat.add_le_add_left (hfraction _) _
    _ = rest.length := by rw [← List.length_append, List.takeWhile_append_dropWhile]

/-- A lexeme is no longer than the text. -/
theorem further_le_length {c : Char} {rest : List Char} {lexeme : Lexeme}
    (h : firstLexeme c rest = some lexeme) : lexeme.further ≤ rest.length := by
  have hrun : ∀ p : Char → Bool, (rest.takeWhile p).length ≤ rest.length :=
    fun p => (List.takeWhile_prefix p).length_le
  unfold firstLexeme at h
  split at h
  · cases h; exact hrun _
  · split at h
    · cases h; exact hrun _
    · split at h
      · cases h; exact numberLength_le_length rest
      · split at h
        · obtain ⟨n, hn, rfl⟩ := Option.map_eq_some_iff.1 h
          exact (quotedLength_take hn []).1
        · split at h
          · split at h
            · cases h; exact hrun _
            · obtain ⟨n, hn, rfl⟩ := Option.map_eq_some_iff.1 h
              exact Nat.succ_le_succ (commentLength_take hn []).1
            · cases h; exact Nat.zero_le _
          · cases h; exact Nat.zero_le _

/-- A slash begins a comment, or stands for itself when neither a slash nor a star
follows. -/
def slashLexeme (rest : List Char) : Option Lexeme :=
  if rest.head? = some '/' then some ⟨none, (rest.takeWhile (· ≠ '\n')).length⟩
  else if rest.head? = some '*' then (commentLength rest.tail).map fun n => ⟨none, n + 1⟩
  else some ⟨some .punctuation, 0⟩

theorem firstLexeme_slash (rest : List Char) : firstLexeme '/' rest = slashLexeme rest := by
  unfold firstLexeme slashLexeme
  rw [if_neg (by decide), if_neg (by decide), if_neg (by decide), if_neg (by decide), if_pos rfl]
  split
  · rfl
  · rfl
  · next hslash hstar =>
    have hhead : ∀ c, rest.head? = some c → ∃ more, rest = c :: more :=
      fun c hc => ⟨rest.tail, (List.cons_head?_tail hc).symm⟩
    rw [if_neg fun hc => (hhead _ hc).elim hslash, if_neg fun hc => (hhead _ hc).elim hstar]

/-- A slash that stands for itself stays, as long as no comment is opened. -/
theorem slashLexeme_token_congr {tail rest rest' : List Char} {kind : Token.Kind}
    (hends : EndsTokens rest rest')
    (h : slashLexeme (tail ++ rest) = some ⟨some kind, tail.length⟩) :
    slashLexeme (tail ++ rest') = some ⟨some kind, tail.length⟩ := by
  unfold slashLexeme at h ⊢
  split at h
  · cases h
  · next hslash =>
    split at h
    · obtain ⟨n, -, heq⟩ := Option.map_eq_some_iff.1 h
      cases heq
    · next hstar =>
      obtain ⟨hkind, hlength⟩ := Lexeme.mk.inj (Option.some.inj h)
      obtain rfl : tail = [] := List.length_eq_zero_iff.1 hlength.symm
      rw [List.nil_append] at hslash hstar ⊢
      rw [if_neg fun hhead => hslash (hends.slash hhead),
        if_neg fun hhead => hstar (hends.star hhead), hkind]
      rfl

/-- A token stays when what follows it ends it in the same way. -/
theorem firstLexeme_token_congr {c : Char} {tail rest rest' : List Char} {kind : Token.Kind}
    (hends : EndsTokens rest rest')
    (h : firstLexeme c (tail ++ rest) = some ⟨some kind, tail.length⟩) :
    firstLexeme c (tail ++ rest') = some ⟨some kind, tail.length⟩ := by
  by_cases hslash : c = '/'
  · subst hslash
    rw [firstLexeme_slash] at h ⊢
    exact slashLexeme_token_congr hends h
  · unfold firstLexeme at h ⊢
    rw [if_neg hslash] at h ⊢
    split at h
    · cases h
    · next hblank =>
      rw [if_neg hblank]
      split at h
      · next hstart =>
        obtain ⟨hkind, hlength⟩ := Lexeme.mk.inj (Option.some.inj h)
        have hlength' := length_takeWhile_congr hends.word hlength
        rw [takeWhile_append_of_length hlength] at hkind
        rw [if_pos hstart, takeWhile_append_of_length hlength', ← hkind]
      · next hstart =>
        rw [if_neg hstart]
        split at h
        · next hdigit =>
          obtain ⟨hkind, hlength⟩ := Lexeme.mk.inj (Option.some.inj h)
          rw [if_pos hdigit, numberLength_congr hends hlength, hkind]
        · next hdigit =>
          rw [if_neg hdigit]
          split at h
          · next hquote =>
            obtain ⟨n, hn, heq⟩ := Option.map_eq_some_iff.1 h
            obtain ⟨hkind, rfl⟩ := Lexeme.mk.inj heq
            have htake := (quotedLength_take hn rest').2
            rw [List.take_left] at htake
            rw [if_pos hquote, htake, ← hkind]
            rfl
          · next hquote =>
            rw [if_neg hquote]
            exact h

/-- A comment stays when what follows it looks the same. -/
theorem slashLexeme_comment_congr {tail rest rest' : List Char} (hlike : LooksLike rest rest')
    (h : slashLexeme (tail ++ rest) = some ⟨none, tail.length⟩) :
    slashLexeme (tail ++ rest') = some ⟨none, tail.length⟩ := by
  unfold slashLexeme at h ⊢
  cases tail with
  | nil =>
    simp only [List.nil_append, List.length_nil] at h
    split at h
    · next hhead =>
      obtain ⟨more, rfl⟩ : ∃ more, rest = '/' :: more :=
        ⟨rest.tail, (List.cons_head?_tail hhead).symm⟩
      simp at h
    · split at h
      · obtain ⟨n, -, heq⟩ := Option.map_eq_some_iff.1 h
        cases heq
      · cases h
  | cons c tail =>
    simp only [List.cons_append, List.head?_cons, List.tail_cons, Option.some.injEq] at h ⊢
    split at h
    · next hslash =>
      obtain ⟨-, hlength⟩ := Lexeme.mk.inj (Option.some.inj h)
      have hfeed : ∀ c, isWordStart c = true → decide (c ≠ '\n') = true :=
        fun c hc => decide_eq_true (ne_of_isWordStart (by decide) hc)
      rw [← List.cons_append] at hlength
      have hlength' := length_takeWhile_congr (hlike.first.any_eq hfeed) hlength
      rw [if_pos hslash, ← hlength']
      rfl
    · next hslash =>
      rw [if_neg hslash]
      split at h
      · next hstar =>
        obtain ⟨n, hn, heq⟩ := Option.map_eq_some_iff.1 h
        obtain ⟨-, hlength⟩ := Lexeme.mk.inj heq
        obtain rfl : n = tail.length := by simpa using hlength
        have htake := (commentLength_take hn rest').2
        rw [List.take_left] at htake
        rw [if_pos hstar, htake]
        rfl
      · cases h

/-- A lexeme stays when what follows it looks the same. -/
theorem firstLexeme_congr {c : Char} {tail rest rest' : List Char} {kind : Option Token.Kind}
    (hlike : LooksLike rest rest')
    (h : firstLexeme c (tail ++ rest) = some ⟨kind, tail.length⟩) :
    firstLexeme c (tail ++ rest') = some ⟨kind, tail.length⟩ := by
  cases kind with
  | some kind => exact firstLexeme_token_congr hlike.endsTokens h
  | none =>
    by_cases hslash : c = '/'
    · subst hslash
      rw [firstLexeme_slash] at h ⊢
      exact slashLexeme_comment_congr hlike h
    · unfold firstLexeme at h ⊢
      rw [if_neg hslash] at h ⊢
      split at h
      · next hblank =>
        obtain ⟨-, hlength⟩ := Lexeme.mk.inj (Option.some.inj h)
        have hlength' :=
          length_takeWhile_congr (hlike.first.any_eq fun _ => isBlank_of_isWordStart) hlength
        rw [if_pos hblank, hlength']
      · -- what is read otherwise is a token
        split at h
        · cases h
        · split at h
          · cases h
          · split at h
            · obtain ⟨n, -, heq⟩ := Option.map_eq_some_iff.1 h
              cases heq
            · cases h

/-- An identifier is read up to what does not continue a word. -/
theorem firstLexeme_identifier {c : Char} {tail rest : List Char} (h : IsIdentifier (c :: tail))
    (hrest : rest.head?.any isWordChar = false) :
    firstLexeme c (tail ++ rest) = some ⟨some .identifier, tail.length⟩ := by
  obtain ⟨hstart, htail, hkind⟩ := h
  have hlength := length_takeWhile_append_iff.2 ⟨htail, hrest⟩
  have hblank := isBlank_of_isWordStart hstart
  unfold firstLexeme
  rw [if_neg (by simp [hblank]), if_pos hstart, takeWhile_append_of_length hlength]
  simp only [hkind]

/-! ## Texts with other identifiers -/

/-- A stretch stays, or it is an identifier that becomes another. -/
def Replaces (s s' : Stretch) : Prop :=
  s' = s ∨ s.kind = some .identifier ∧ s'.kind = some .identifier ∧ IsIdentifier s'.chars

/-- A text is cut behind its first lexeme. -/
theorem LexedAs.cons_append {c : Char} {tail rest : List Char} {kind : Option Token.Kind}
    {stretches : List Stretch} (hfirst : firstLexeme c (tail ++ rest) = some ⟨kind, tail.length⟩)
    (hothers : LexedAs rest stretches) :
    LexedAs (c :: (tail ++ rest)) (⟨kind, c :: tail⟩ :: stretches) := by
  have hcons : LexedAs (c :: (tail ++ rest))
      (⟨kind, c :: (tail ++ rest).take tail.length⟩ :: stretches) :=
    .cons hfirst (by rwa [List.drop_left])
  rwa [List.take_left] at hcons

theorem LooksLike.cons_append {c : Char} {rest rest' : List Char} (tail : List Char)
    (h : LooksLike rest rest') : LooksLike (c :: (tail ++ rest)) (c :: (tail ++ rest')) := by
  refine ⟨.inl rfl, fun _ => ?_⟩
  cases tail with
  | nil => exact h.first
  | cons d tail => exact .inl rfl

/-- A text with other identifiers is cut in the same way, and looks the same. -/
theorem LexedAs.replace {text : List Char} {stretches stretches' : List Stretch}
    (h : LexedAs text stretches) (hreplaces : List.Forall₂ Replaces stretches stretches') :
    LexedAs (joined stretches') stretches' ∧ LooksLike text (joined stretches') := by
  induction h generalizing stretches' with
  | nil =>
    cases hreplaces
    exact ⟨.nil, .inl rfl, nofun⟩
  | @cons c rest lexeme stretches hfirst _ ih =>
    cases hreplaces with
    | @cons _ s' _ others hs hothers =>
      obtain ⟨hlexed, hlike⟩ := ih hothers
      have hsplit : rest = rest.take lexeme.further ++ rest.drop lexeme.further :=
        (List.take_append_drop _ _).symm
      have hlength : (rest.take lexeme.further).length = lexeme.further :=
        List.length_take_of_le (further_le_length hfirst)
      have hjoined : joined (s' :: others) = s'.chars ++ joined others := rfl
      rw [hjoined]
      rcases hs with rfl | ⟨hkind, hkind', hword⟩
      · have hkept : firstLexeme c (rest.take lexeme.further ++ joined others) =
            some ⟨lexeme.kind, (rest.take lexeme.further).length⟩ := by
          refine firstLexeme_congr hlike ?_
          rw [← hsplit, hlength]
          exact hfirst
        have hlooks := hlike.cons_append (c := c) (rest.take lexeme.further)
        rw [← hsplit] at hlooks
        exact ⟨.cons_append hkept hlexed, hlooks⟩
      · obtain ⟨-, hstart, hfurther, -⟩ := eq_takeWhile_of_firstLexeme_identifier hfirst hkind
        -- the word that was there has ended where the new one ends
        have hend : (joined others).head?.any isWordChar = false := by
          rw [← hlike.first.any_eq fun _ => isWordChar_of_isWordStart]
          have hrun : ((rest.take lexeme.further ++ rest.drop lexeme.further).takeWhile
              isWordChar).length = (rest.take lexeme.further).length := by
            rw [← hsplit, hlength, hfurther]
          exact (length_takeWhile_append_iff.1 hrun).2
        obtain ⟨kind', chars⟩ := s'
        obtain rfl : kind' = some .identifier := hkind'
        cases chars with
        | nil => exact absurd rfl hword.ne_nil
        | cons c' tail =>
          refine ⟨.cons_append (firstLexeme_identifier hword hend) hlexed, ?_, ?_⟩
          · exact .inr ⟨c, c', rfl, rfl, hstart, hword.1⟩
          · intro hdot
            obtain rfl : c = '.' := by simpa using hdot
            cases hstart

end SymbolAtlas
