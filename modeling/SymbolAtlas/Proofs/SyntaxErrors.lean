import SymbolAtlas.Proofs.Unfinished

/-!
# Syntax errors

The tokens of a text that are no module are rejected with one error.  There may be a first
token with which they can no longer be continued to a module: then the error stands at this
token, which is out of place in an import or a declaration, or a closing brace without an
open one.  Otherwise the tokens come to an end too early, in an import, in a declaration or
in a block, and then the error names what is required there or the outermost open brace.

## Main Definitions

* `Viable`: some tokens can be continued to a module.
* `Rejected`: the error of tokens that are no module.

## Main Statements

* `stops_or_isModule`: tokens are a module, or reading stops behind some items.
* `rejected_iff`: the error with which tokens are rejected.
* `parse_decides_grammar`: what reading gives on any text that has tokens.
-/

namespace SymbolAtlas

/-- Some tokens can be continued to a module. -/
def Viable (tokens : List Token) : Prop := ∃ more, IsModule (tokens ++ more)

/-- The error of tokens that are no module.  In all cases a row of items stands in front of
what is wrong. -/
inductive Rejected : List Token → SyntaxError → Prop where
  /-- With a token in an import or a declaration no continuation is left. -/
  | unexpected {items front back : List Token} {t : Token} {what : Expectation}
      {kinds : List Token.Kind} (before : IsModule items)
      (unfinished : Unfinished front what kinds) (viable : Viable (items ++ front))
      (dead : ¬ Viable (items ++ (front ++ [t]))) :
      Rejected (items ++ (front ++ t :: back)) (.unexpectedToken t.position t.lexeme what)
  /-- The tokens end in an import or a declaration. -/
  | ended {items front : List Token} {what : Expectation} {kinds : List Token.Kind}
      (before : IsModule items) (unfinished : Unfinished front what kinds)
      (viable : Viable (items ++ front)) : Rejected (items ++ front) (.unexpectedEnd what)
  /-- With a closing brace outside of all braces no continuation is left. -/
  | unmatched {items back : List Token} {t : Token} (before : IsModule items)
      (closes : t.kind = .closeBrace) (dead : ¬ Viable (items ++ [t])) :
      Rejected (items ++ t :: back) (.unmatchedBrace t.position)
  /-- The tokens end in a block; the brace is the outermost one that is still open. -/
  | unclosed {items inner : List Token} {t : Token} (before : IsModule items)
      (opens : t.kind = .openBrace) (unclosed : ¬ Closes inner)
      (viable : Viable (items ++ t :: inner)) :
      Rejected (items ++ t :: inner) (.unclosedBrace t.position)

/-! ## Where reading stops -/

/-- Tokens at whose beginning there is no item. -/
inductive Stuck : List Token → Prop where
  | unfinished {front rest : List Token} {what : Expectation} {kinds : List Token.Kind}
      (unfinished : Unfinished front what kinds) (lacks : Lacks kinds rest) :
      Stuck (front ++ rest)
  | unmatched {t : Token} {rest : List Token} (closes : t.kind = .closeBrace) : Stuck (t :: rest)
  | unclosed {t : Token} {inner : List Token} (opens : t.kind = .openBrace)
      (unclosed : ¬ Closes inner) : Stuck (t :: inner)

/-- Tokens with items up to a place where there is none. -/
def Stops (tokens : List Token) : Prop :=
  ∃ items rest, tokens = items ++ rest ∧ Items items rest ∧ Stuck rest

theorem Stuck.stops {tokens : List Token} (h : Stuck tokens) : Stops tokens :=
  ⟨[], tokens, rfl, .nil, h⟩

theorem stops_or_isModule_cons {item tokens : List Token} (hitem : ModuleItem item tokens)
    (h : Stops tokens ∨ IsModule tokens) : Stops (item ++ tokens) ∨ IsModule (item ++ tokens) := by
  rcases h with ⟨items, rest, rfl, hitems, hrest⟩ | hmodule
  · exact .inl ⟨item ++ items, rest, (List.append_assoc _ _ _).symm, .cons hitem hitems, hrest⟩
  · exact .inr (.cons (by rwa [List.append_nil]) hmodule)

/-- Tokens are a module, or there is a place behind some items where no item begins. -/
theorem stops_or_isModule : (tokens : List Token) → Stops tokens ∨ IsModule tokens
  | [] => .inr .nil
  | t :: rest => by
    by_cases hcloses : t.kind = .closeBrace
    · exact .inl (Stuck.unmatched hcloses).stops
    by_cases hopens : t.kind = .openBrace
    · by_cases hclosed : Closes rest
      · obtain ⟨body, closing, back, rfl, hbody, hclosing⟩ := hclosed
        have hback := stops_or_isModule_cons (.block hopens hbody hclosing) (stops_or_isModule back)
        rwa [List.cons_append, List.append_assoc] at hback
      · exact .inl (Stuck.unclosed hopens hclosed).stops
    by_cases hfrom : t.kind = .fromWord
    · cases hstatement : importStatement rest with
      | error e =>
        obtain ⟨front, what, kinds, back, heq, hfront, hback⟩ :=
          exists_unfinished_of_importStatement hfrom hstatement
        rw [heq]
        exact .inl (Stuck.unfinished hfront hback).stops
      | ok s =>
        have hshorter : s.2.length < rest.length := length_lt_of_importStatement hstatement
        obtain ⟨p, rfl, hvalid, hends, hrest, -⟩ := importStatement_sound hfrom hstatement
        have hleft := stops_or_isModule_cons (.importing hvalid hends) (stops_or_isModule s.2)
        rwa [List.cons_append, ← hrest] at hleft
    cases hdeclared : declKind? t.kind with
    | some kind =>
      cases hname : expect .identifier .declarationName rest with
      | error e =>
        have hstuck : Stuck ([t] ++ rest) :=
          .unfinished (.declaration hdeclared) (lacks_of_expect hname)
        exact .inl hstuck.stops
      | ok s =>
        have hshorter : s.2.length < rest.length := length_lt_of_expect hname
        obtain ⟨heq, hkind⟩ := expect_eq_ok_iff.1 hname
        have hleft := stops_or_isModule_cons (.declaring hdeclared hkind) (stops_or_isModule s.2)
        rw [heq]
        exact hleft
    | none =>
      exact stops_or_isModule_cons (.single ⟨hopens, hcloses⟩ ⟨hfrom, hdeclared⟩)
        (stops_or_isModule rest)
termination_by tokens => tokens.length
decreasing_by
  · subst_vars
    simp only [List.length_cons, List.length_append]
    omega
  · exact Nat.lt_succ_of_lt hshorter
  · exact Nat.lt_succ_self _
  · exact Nat.lt_succ_of_lt hshorter

/-- A statement begins with a word that continues no import. -/
theorem Unfinished.head {front : List Token} {what : Expectation} {kinds : List Token.Kind}
    (h : Unfinished front what kinds) :
    ∃ word tail, front = word :: tail ∧ word.kind ≠ .comma ∧ word.kind ≠ .asWord := by
  have hstart : ∀ {p : PackageStart}, p.Valid → ∀ more, ∃ word tail,
      p.tokens ++ more = word :: tail ∧ word.kind ≠ .comma ∧ word.kind ≠ .asWord := by
    intro p hp more
    refine ⟨p.word, p.dots ++ dotted p.path ++ more, rfl, ?_⟩
    rw [hp.word]
    decide
  cases h with
  | dots start _ => exact List.append_nil (PackageStart.tokens _) ▸ hstart start []
  | path start _ => exact List.append_nil (PackageStart.tokens _) ▸ hstart start []
  | package start _ => exact hstart start _
  | items start _ _ _ => exact hstart start _
  | aliasing start _ _ _ _ _ => exact hstart start _
  | @declaration word kind word_kind =>
    refine ⟨word, [], rfl, ?_, ?_⟩
    all_goals
      intro hkind
      rw [hkind] at word_kind
      cases word_kind

/-- Reading goes over the items in front of what is wrong. -/
theorem verdict_behind {items rest : List Token} {t : Token} (h : IsModule items)
    (ht : t.kind ≠ .comma ∧ t.kind ≠ .asWord) :
    verdict [] (items ++ t :: rest) = verdict [] (t :: rest) := by
  refine (Items.of_isModule h ?_).verdict_append
  rintro u hu
  rwa [← Option.some.inj hu]

theorem Unfinished.verdict_behind {items front rest : List Token} {what : Expectation}
    {kinds : List Token.Kind} (h : Unfinished front what kinds) (hitems : IsModule items) :
    verdict [] (items ++ (front ++ rest)) = verdict [] (front ++ rest) := by
  obtain ⟨word, tail, rfl, hword⟩ := h.head
  exact SymbolAtlas.verdict_behind hitems hword

theorem verdict_unclosed {t : Token} {inner : List Token} (hopens : t.kind = .openBrace)
    (h : ¬ Closes inner) : verdict [] (t :: inner) = .error (.unclosedBrace t.position) := by
  rw [verdict_openBrace hopens]
  exact ((closes_or_neverCloses inner).resolve_left h).verdict_eq t []

theorem Stuck.verdict_ne_ok {tokens : List Token} (h : Stuck tokens) :
    verdict [] tokens ≠ .ok () := by
  cases h with
  | unfinished unfinished lacks => rw [unfinished.verdict_append lacks]; exact nofun
  | unmatched closes => rw [verdict_unmatched closes]; exact nofun
  | unclosed opens unclosed => rw [verdict_unclosed opens unclosed]; exact nofun

/-- Reading accepts exactly the modules. -/
theorem isModule_iff {tokens : List Token} : IsModule tokens ↔ verdict [] tokens = .ok () := by
  refine ⟨IsModule.verdict_eq, fun h => ?_⟩
  rcases stops_or_isModule tokens with ⟨items, rest, rfl, hitems, hrest⟩ | hmodule
  · rw [hitems.verdict_append] at h
    exact absurd h hrest.verdict_ne_ok
  · exact hmodule

/-! ## What can be continued -/

section Viability

variable {items front inner : List Token} {what : Expectation} {kinds : List Token.Kind} {t : Token}

theorem Unfinished.viable (h : Unfinished front what kinds) (hitems : IsModule items) :
    Viable (items ++ front) := by
  obtain ⟨more, hmore⟩ := h.exists_more
  refine ⟨more, isModule_iff.2 ?_⟩
  rw [List.append_assoc, h.verdict_behind hitems, hmore]

theorem Unfinished.viable_extend (h : Unfinished front what kinds) (hitems : IsModule items)
    (ht : t.kind ∈ kinds) : Viable (items ++ (front ++ [t])) := by
  rcases h.extend ht with ⟨what', kinds', hextended⟩ | hcomplete
  · exact hextended.viable hitems
  · refine ⟨[], isModule_iff.2 ?_⟩
    rw [List.append_nil, h.verdict_behind hitems, hcomplete]

theorem Unfinished.not_viable (h : Unfinished front what kinds) (hitems : IsModule items)
    (ht : t.kind ∉ kinds) : ¬ Viable (items ++ (front ++ [t])) := by
  rintro ⟨more, hmodule⟩
  have hread := isModule_iff.1 hmodule
  rw [List.append_assoc, List.append_assoc, h.verdict_behind hitems, List.singleton_append,
    h.verdict_append (lacks_cons.2 ht)] at hread
  cases hread

theorem not_viable_unmatched (hitems : IsModule items) (ht : t.kind = .closeBrace) :
    ¬ Viable (items ++ [t]) := by
  rintro ⟨more, hmodule⟩
  have hread := isModule_iff.1 hmodule
  rw [List.append_assoc, List.singleton_append, verdict_behind hitems (by rw [ht]; decide),
    verdict_unmatched ht] at hread
  cases hread

theorem viable_unclosed (hitems : IsModule items) (ht : t.kind = .openBrace)
    (h : ¬ Closes inner) : Viable (items ++ t :: inner) := by
  obtain ⟨closings, hbalanced⟩ := ((closes_or_neverCloses inner).resolve_left h).completes
  let closing : Token := ⟨.closeBrace, "", .start⟩
  have hblock : verdict [] (t :: (inner ++ closings ++ [closing])) = .ok () := by
    have hitem : ModuleItem (t :: (inner ++ closings ++ [closing])) [] := .block ht hbalanced rfl
    rw [← List.append_nil (t :: _), hitem.verdict_append, verdict_nil]
  refine ⟨closings ++ [closing], isModule_iff.2 ?_⟩
  rw [List.append_assoc, List.cons_append, ← List.append_assoc,
    verdict_behind hitems (by rw [ht]; decide), hblock]

end Viability

/-! ## The error of tokens that are no module -/

theorem Rejected.verdict_eq {tokens : List Token} {e : SyntaxError} (h : Rejected tokens e) :
    verdict [] tokens = .error e := by
  cases h with
  | unexpected before unfinished viable dead =>
    have hlacks := fun ht => dead (unfinished.viable_extend before ht)
    rw [unfinished.verdict_behind before, unfinished.verdict_append (lacks_cons.2 hlacks)]
    rfl
  | @ended items front what kinds before unfinished viable =>
    rw [← List.append_nil front, unfinished.verdict_behind before,
      unfinished.verdict_append (lacks_nil kinds)]
    rfl
  | unmatched before closes dead =>
    rw [verdict_behind before (by rw [closes]; decide), verdict_unmatched closes]
  | unclosed before opens unclosed viable =>
    rw [verdict_behind before (by rw [opens]; decide), verdict_unclosed opens unclosed]

theorem Stops.exists_rejected {tokens : List Token} (h : Stops tokens) :
    ∃ e, Rejected tokens e := by
  obtain ⟨items, rest, rfl, hitems, hrest⟩ := h
  have hmodule := hitems.isModule
  cases hrest with
  | @unfinished front rest what kinds unfinished lacks =>
    have hviable := unfinished.viable hmodule
    cases rest with
    | nil =>
      rw [List.append_nil]
      exact ⟨_, .ended hmodule unfinished hviable⟩
    | cons t back =>
      exact ⟨_, .unexpected hmodule unfinished hviable
        (unfinished.not_viable hmodule (lacks_cons.1 lacks))⟩
  | unmatched closes => exact ⟨_, .unmatched hmodule closes (not_viable_unmatched hmodule closes)⟩
  | unclosed opens unclosed =>
    exact ⟨_, .unclosed hmodule opens unclosed (viable_unclosed hmodule opens unclosed)⟩

/-- Tokens that are no module are rejected with their error. -/
theorem rejected_iff {tokens : List Token} {e : SyntaxError} :
    Rejected tokens e ↔ verdict [] tokens = .error e := by
  refine ⟨Rejected.verdict_eq, fun h => ?_⟩
  rcases stops_or_isModule tokens with hstops | hmodule
  · obtain ⟨e', hrejected⟩ := hstops.exists_rejected
    rwa [← Except.error.inj (hrejected.verdict_eq.symm.trans h)]
  · rw [hmodule.verdict_eq] at h
    cases h

/-- A text that has tokens is accepted exactly when they are a module, and is rejected with
their error otherwise. -/
theorem parse_decides_grammar {text : String} {tokens : List Token}
    (h : tokenize text = .ok tokens) :
    ((∃ o, Outline.parse text = .ok o) ↔ IsModule tokens) ∧
      ∀ e, Outline.parse text = .error e ↔ Rejected tokens e := by
  have hparse : Outline.parse text = outlineFrom [] tokens := by
    rw [Outline.parse, h]
  rw [hparse]
  refine ⟨?_, fun e => ?_⟩
  · rw [isModule_iff, verdict_eq_ok_iff]
  · rw [rejected_iff, verdict_eq_error_iff]

/-- A block in which a reserved word has no meaning, and an import with a comma behind which
another one stands. -/
def danglingText : String := "type T {from}\nfrom .a import b, as"

/-- The comma belongs to the import, so that no module begins with what follows it. -/
theorem parse_decides_grammar_dangling :
    ∃ tokens, tokenize danglingText = .ok tokens ∧ ¬ IsModule tokens ∧
      Rejected tokens (.unexpectedToken ⟨1, 18⟩ "as" .symbolName) := by
  obtain ⟨tokens, htokens⟩ : ∃ tokens, tokenize danglingText = .ok tokens :=
    ⟨_, eq_ok_of_toOption (Option.eq_some_of_isSome (by decide +kernel))⟩
  have hparse : Outline.parse danglingText =
      .error (.unexpectedToken ⟨1, 18⟩ "as" .symbolName) := by
    decide +kernel
  obtain ⟨hok, herror⟩ := parse_decides_grammar htokens
  refine ⟨tokens, htokens, fun hmodule => ?_, (herror _).1 hparse⟩
  obtain ⟨o, ho⟩ := hok.2 hmodule
  rw [hparse] at ho
  cases ho

end SymbolAtlas
