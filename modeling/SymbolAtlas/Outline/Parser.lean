import SymbolAtlas.Outline.Basic
import SymbolAtlas.Token.Lexer

/-!
# Reading outlines

Outside of braces three kinds of statement are recognised:

```text
from <dots><segment>{.<segment>} import <name> [as <alias>] {, <name> [as <alias>]}
type <name>      interface <name>      service <name>
```

Any other identifier, at any depth, is collected as a possible reference, and
all other tokens are passed over.  Braces must match.

## Main Definitions

* `expect`: one token of a required kind.
* `packageSegments`, `importItems`, `importStatement`: an import, piece by piece.
* `outlineFrom`: the outline of a list of tokens inside some open braces.
* `Outline.parse`: the outline of a text.

Each reader returns the tokens it leaves, which are fewer than it was given;
`length_lt_of_importStatement` and its companions say so, and the readers that
repeat end because of them.
-/

namespace SymbolAtlas

/-- Take one token of a required kind. -/
def expect (kind : Token.Kind) (what : Expectation) :
    List Token → Except SyntaxError (Token × List Token)
  | [] => .error (.unexpectedEnd what)
  | t :: rest =>
    if t.kind = kind then .ok (t, rest)
    else .error (.unexpectedToken t.position t.lexeme what)

/-- What follows the first token, when that has the given kind. -/
def after? (kind : Token.Kind) : List Token → Option (List Token)
  | [] => none
  | t :: rest => if t.kind = kind then some rest else none

theorem eq_cons_of_expect {kind : Token.Kind} {what : Expectation} {tokens rest : List Token}
    {t : Token} (h : expect kind what tokens = .ok (t, rest)) : tokens = t :: rest := by
  cases tokens with
  | nil => simp [expect] at h
  | cons u us =>
    simp only [expect] at h
    split at h
    · simp only [Except.ok.injEq, Prod.mk.injEq] at h
      rw [h.1, h.2]
    · simp at h

theorem length_lt_of_expect {kind : Token.Kind} {what : Expectation} {tokens rest : List Token}
    {t : Token} (h : expect kind what tokens = .ok (t, rest)) :
    rest.length < tokens.length := by
  rw [eq_cons_of_expect h]; simp

theorem length_lt_of_after? {kind : Token.Kind} {tokens rest : List Token}
    (h : after? kind tokens = some rest) : rest.length < tokens.length := by
  cases tokens with
  | nil => simp [after?] at h
  | cons u us =>
    simp only [after?] at h
    split at h
    · simp only [Option.some.injEq] at h
      rw [h]; simp
    · simp at h

/-- The segments of a package path: names with dots between them. -/
def packageSegments (tokens : List Token) : Except SyntaxError (List String × List Token) :=
  match h : expect .identifier .packageName tokens with
  | .error e => .error e
  | .ok (segment, rest) =>
    match h' : after? .dot rest with
    | none => .ok ([segment.lexeme], rest)
    | some rest' =>
      have : rest'.length < tokens.length :=
        Nat.lt_trans (length_lt_of_after? h') (length_lt_of_expect h)
      match packageSegments rest' with
      | .error e => .error e
      | .ok (segments, left) => .ok (segment.lexeme :: segments, left)
termination_by tokens.length

/-- One imported name with its optional alias. -/
def importItem (tokens : List Token) : Except SyntaxError (ImportItem × List Token) :=
  match expect .identifier .symbolName tokens with
  | .error e => .error e
  | .ok (name, rest) =>
    match after? .asWord rest with
    | none => .ok (⟨name.identifier, none⟩, rest)
    | some rest' =>
      match expect .identifier .aliasName rest' with
      | .error e => .error e
      | .ok (other, left) => .ok (⟨name.identifier, some other.identifier⟩, left)

theorem length_lt_of_importItem {tokens rest : List Token} {item : ImportItem}
    (h : importItem tokens = .ok (item, rest)) : rest.length < tokens.length := by
  unfold importItem at h
  split at h
  · simp at h
  · rename_i name left h₁
    have := length_lt_of_expect h₁
    split at h
    · simp only [Except.ok.injEq, Prod.mk.injEq] at h
      rw [← h.2]; exact this
    · rename_i left' h₂
      have := length_lt_of_after? h₂
      split at h
      · simp at h
      · rename_i other left'' h₃
        have := length_lt_of_expect h₃
        simp only [Except.ok.injEq, Prod.mk.injEq] at h
        rw [← h.2]; omega

/-- The items of an import statement: one, or several with commas between them. -/
def importItems (tokens : List Token) :
    Except SyntaxError (ImportItem × List ImportItem × List Token) :=
  match h : importItem tokens with
  | .error e => .error e
  | .ok (item, rest) =>
    match h' : after? .comma rest with
    | none => .ok (item, [], rest)
    | some rest' =>
      have : rest'.length < tokens.length :=
        Nat.lt_trans (length_lt_of_after? h') (length_lt_of_importItem h)
      match importItems rest' with
      | .error e => .error e
      | .ok (next, others, left) => .ok (item, next :: others, left)
termination_by tokens.length

/-- An import statement, without the word that introduces it. -/
def importStatement (tokens : List Token) : Except SyntaxError (ImportStatement × List Token) :=
  let dots := tokens.takeWhile (·.kind = .dot)
  match packageSegments (tokens.dropWhile (·.kind = .dot)) with
  | .error e => .error e
  | .ok (segments, rest) =>
    match expect .importWord .importWord rest with
    | .error e => .error e
    | .ok (_, rest') =>
      match importItems rest' with
      | .error e => .error e
      | .ok (first, others, left) => .ok (⟨⟨dots.length, segments⟩, first, others⟩, left)

theorem length_lt_of_packageSegments {tokens rest : List Token} {segments : List String}
    (h : packageSegments tokens = .ok (segments, rest)) : rest.length < tokens.length := by
  fun_induction packageSegments tokens generalizing segments rest with
  | case1 => simp at h
  | case2 tokens segment left h₁ _ =>
    simp only [Except.ok.injEq, Prod.mk.injEq] at h
    rw [← h.2]; exact length_lt_of_expect h₁
  | case3 => simp at h
  | case4 tokens segment left h₁ left' h₂ _ more left'' h₃ ih =>
    simp only [Except.ok.injEq, Prod.mk.injEq] at h
    have := length_lt_of_expect h₁
    have := length_lt_of_after? h₂
    have := ih h₃
    rw [← h.2]; omega

theorem length_lt_of_importItems {tokens rest : List Token} {first : ImportItem}
    {others : List ImportItem} (h : importItems tokens = .ok (first, others, rest)) :
    rest.length < tokens.length := by
  fun_induction importItems tokens generalizing first others rest with
  | case1 => simp at h
  | case2 tokens item left h₁ _ =>
    simp only [Except.ok.injEq, Prod.mk.injEq] at h
    rw [← h.2.2]; exact length_lt_of_importItem h₁
  | case3 => simp at h
  | case4 tokens item left h₁ left' h₂ _ next more left'' h₃ ih =>
    simp only [Except.ok.injEq, Prod.mk.injEq] at h
    have := length_lt_of_importItem h₁
    have := length_lt_of_after? h₂
    have := ih h₃
    rw [← h.2.2]; omega

theorem length_lt_of_importStatement {tokens rest : List Token} {s : ImportStatement}
    (h : importStatement tokens = .ok (s, rest)) : rest.length < tokens.length := by
  have hdrop : (tokens.dropWhile (·.kind = .dot)).length ≤ tokens.length :=
    (List.dropWhile_sublist _).length_le
  unfold importStatement at h
  split at h
  · simp at h
  · rename_i segments left h₁
    have := length_lt_of_packageSegments h₁
    split at h
    · simp at h
    · rename_i word left' h₂
      have := length_lt_of_expect h₂
      split at h
      · simp at h
      · rename_i first others left'' h₃
        have := length_lt_of_importItems h₃
        simp only [Except.ok.injEq, Prod.mk.injEq] at h
        rw [← h.2]; omega

/-- The kind of declaration that a token introduces. -/
def declKind? : Token.Kind → Option DeclKind
  | .typeWord => some .type
  | .interfaceWord => some .interface
  | .serviceWord => some .service
  | _ => none

/-- The outline of a list of tokens that stand inside the given open braces, the
innermost brace first.  Statements are only recognised outside of all braces. -/
def outlineFrom (braces : List Token) : List Token → Except SyntaxError Outline
  | [] =>
    -- the last brace of the list is the outermost one
    match braces.getLast? with
    | some brace => .error (.unclosedBrace brace.position)
    | none => .ok .empty
  | t :: rest =>
    match t.kind with
    | .openBrace => outlineFrom (t :: braces) rest
    | .closeBrace =>
      match braces with
      | [] => .error (.unmatchedBrace t.position)
      | _ :: outer => outlineFrom outer rest
    | .identifier => (outlineFrom braces rest).map (.mention t.identifier)
    | kind =>
      if braces.isEmpty && kind = .fromWord then
        match h : importStatement rest with
        | .error e => .error e
        | .ok (s, left) =>
          have : left.length < rest.length := length_lt_of_importStatement h
          (outlineFrom braces left).map (.importing s)
      else
        match braces.isEmpty, declKind? kind with
        | true, some declared =>
          match h : expect .identifier .declarationName rest with
          | .error e => .error e
          | .ok (name, left) =>
            have : left.length < rest.length := length_lt_of_expect h
            (outlineFrom braces left).map (.declare ⟨declared, name.identifier⟩)
        | _, _ => outlineFrom braces rest
termination_by tokens => tokens.length
decreasing_by all_goals simp only [List.length_cons]; omega

/-- The outline of a text. -/
def Outline.parse (text : String) : Except SyntaxError Outline :=
  match tokenize text with
  | .error e => .error e
  | .ok tokens => outlineFrom [] tokens

end SymbolAtlas
