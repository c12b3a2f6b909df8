import SymbolAtlas.Proofs.Offsets
import SymbolAtlas.Proofs.ReferenceIndex

/-!
# What becomes of each identifier

Reading an outline neither loses an identifier nor takes one twice.  Each identifier token of
a text has one role: it is listed among the identifiers of the outline, it is a segment of an
imported package, or it is a name that an import gives an alias to.  The statements outside of
all braces are listed in the order of their first words.

## Main Definitions

* `tokensAs`: the tokens with a role.
* `heads`: the first words of statements, which stand outside of all braces.
* `StatesAt`: a statement is written out with a given first word.
* `AccountsFor`: an outline accounts for all identifiers and statements of a text.

## Main Statements

* `perm_tokensAs`: the three roles of identifiers share them out.
* `Phrased.forall₂_statements`: the statements in the order of their first words.
* `parse_accountsFor`: every outline accounts for its text.
-/

namespace SymbolAtlas

/-! ## Sharing out the identifiers -/

/-- The tokens with a role, in text order. -/
def tokensAs (role : Role) (roles : List (Token × Role)) : List Token :=
  (roles.filter (·.2 = role)).map Prod.fst

section

variable (role : Role)

@[simp] theorem tokensAs_nil : tokensAs role [] = [] := rfl

@[simp] theorem tokensAs_cons (r : Token × Role) (roles : List (Token × Role)) :
    tokensAs role (r :: roles) =
      if r.2 = role then r.1 :: tokensAs role roles else tokensAs role roles := by
  by_cases h : r.2 = role <;> simp [tokensAs, h]

@[simp] theorem tokensAs_append (front back : List (Token × Role)) :
    tokensAs role (front ++ back) = tokensAs role front ++ tokensAs role back := by
  simp [tokensAs]

theorem tokensAs_sublist (roles : List (Token × Role)) :
    (tokensAs role roles).Sublist (roles.map Prod.fst) :=
  List.filter_sublist.map _

end

/-- When roles fit the kinds of tokens, the three roles of identifiers share these out. -/
theorem perm_tokensAs {roles : List (Token × Role)} (h : ∀ r ∈ roles, Fits r) :
    (tokensAs .reference roles ++ (tokensAs .segment roles ++ tokensAs .aliasedName roles)).Perm
      ((roles.map Prod.fst).filter (·.kind = .identifier)) := by
  induction roles with
  | nil => exact .nil
  | cons r roles ih =>
    obtain ⟨hfirst, hothers⟩ := List.forall_mem_cons.1 h
    obtain ⟨t, role⟩ := r
    have hkind : t.kind = .identifier ↔ role ≠ .other := by
      simp only [Fits] at hfirst
      rw [ne_eq, hfirst, not_not]
    simp only [tokensAs_cons, List.map_cons, List.filter_cons, decide_eq_true_eq, hkind]
    cases role with
    | reference => exact (ih hothers).cons t
    | segment => exact List.perm_middle.trans ((ih hothers).cons t)
    | aliasedName =>
      refine List.Perm.trans ?_ ((ih hothers).cons t)
      exact (List.perm_middle.append_left _).trans List.perm_middle
    | other => exact ih hothers

/-! ## Segments and aliased names -/

/-- The names of some items that have an alias. -/
def aliasedNames (items : List ImportItem) : List Identifier :=
  (items.filter (·.alias?.isSome)).map (·.name)

theorem aliasedNames_append (front back : List ImportItem) :
    aliasedNames (front ++ back) = aliasedNames front ++ aliasedNames back := by
  simp [aliasedNames]

theorem ItemPhrase.tokensAs_segment_roles (p : ItemPhrase) : tokensAs .segment p.roles = [] := by
  unfold roles
  cases p.alias? <;> rfl

theorem ItemPhrase.tokensAs_aliasedName_roles (p : ItemPhrase) :
    (tokensAs .aliasedName p.roles).map Token.identifier = aliasedNames [p.item] := by
  unfold roles item
  cases p.alias? <;> rfl

namespace ImportPhrase

theorem tokensAs_map_other {role : Role} (h : role ≠ .other) (dots : List Token) :
    tokensAs role (dots.map (·, .other)) = [] := by
  induction dots with
  | nil => rfl
  | cons t dots ih => simp [ih, h.symm]

theorem tokensAs_segment_segmentRoles (segments : List (Token × Token)) :
    tokensAs .segment (segmentRoles segments) = segments.map Prod.snd := by
  induction segments with
  | nil => rfl
  | cons s segments ih => simpa [segmentRoles] using ih

theorem tokensAs_aliasedName_segmentRoles (segments : List (Token × Token)) :
    tokensAs .aliasedName (segmentRoles segments) = [] := by
  induction segments with
  | nil => rfl
  | cons s segments ih => simpa [segmentRoles] using ih

theorem tokensAs_segment_itemRoles (items : List (Token × ItemPhrase)) :
    tokensAs .segment (itemRoles items) = [] := by
  induction items with
  | nil => rfl
  | cons i items ih => simp [itemRoles_cons, ih, i.2.tokensAs_segment_roles]

theorem tokensAs_aliasedName_itemRoles (items : List (Token × ItemPhrase)) :
    (tokensAs .aliasedName (itemRoles items)).map Token.identifier =
      aliasedNames (items.map (·.2.item)) := by
  induction items with
  | nil => rfl
  | cons i items ih =>
    rw [itemRoles_cons, tokensAs_cons, if_neg nofun, tokensAs_append, List.map_append, ih,
      i.2.tokensAs_aliasedName_roles, ← aliasedNames_append]
    rfl

theorem tokensAs_segment_bodyRoles (p : ImportPhrase) :
    (tokensAs .segment p.bodyRoles).map Token.lexeme = p.statement.package.segments := by
  simp [bodyRoles, tokensAs_map_other, tokensAs_segment_segmentRoles,
    p.item.tokensAs_segment_roles, tokensAs_segment_itemRoles, statement]

theorem tokensAs_aliasedName_bodyRoles (p : ImportPhrase) :
    (tokensAs .aliasedName p.bodyRoles).map Token.identifier = aliasedNames p.statement.items := by
  have hitems : p.statement.items = [p.item.item] ++ p.items.map (·.2.item) := rfl
  rw [hitems, aliasedNames_append, ← p.item.tokensAs_aliasedName_roles,
    ← tokensAs_aliasedName_itemRoles]
  simp [bodyRoles, tokensAs_map_other, tokensAs_aliasedName_segmentRoles]

end ImportPhrase

/-- The statement that a phrase is, if it is one. -/
def Phrase.statements : Phrase → List (ImportStatement ⊕ Declaration)
  | importing p => [.inl p.statement]
  | declaring kind _ name => [.inr ⟨kind, name.identifier⟩]
  | single _ => []

/-- A phrase adds its statement to an outline. -/
theorem Phrase.addTo_statements (phrase : Phrase) (o : Outline) :
    (phrase.addTo o).imports = phrase.statements.filterMap Sum.getLeft? ++ o.imports ∧
      (phrase.addTo o).declarations =
        phrase.statements.filterMap Sum.getRight? ++ o.declarations := by
  cases phrase with
  | importing p => exact ⟨rfl, rfl⟩
  | declaring kind word name => exact ⟨rfl, rfl⟩
  | single t =>
    simp only [addTo]
    split <;> exact ⟨rfl, rfl⟩

/-- The tokens that are segments spell the segments of the imported packages. -/
theorem tokensAs_segment_rolesOf (phrases : List Phrase) :
    (tokensAs .segment (rolesOf phrases)).map Token.lexeme =
      (outlineOf phrases).imports.flatMap (·.package.segments) := by
  induction phrases with
  | nil => rfl
  | cons phrase phrases ih =>
    rw [rolesOf, List.flatMap_cons, ← rolesOf, tokensAs_append, List.map_append, ih,
      outlineOf_cons, (phrase.addTo_statements _).1, List.flatMap_append]
    congr 1
    cases phrase with
    | importing p => simp [Phrase.roles, Phrase.statements, p.tokensAs_segment_bodyRoles]
    | declaring kind word name => rfl
    | single t =>
      by_cases hkind : t.kind = .identifier <;> simp [Phrase.roles, Phrase.statements, hkind]

/-- The tokens that get an alias spell the names of the items with an alias. -/
theorem tokensAs_aliasedName_rolesOf (phrases : List Phrase) :
    (tokensAs .aliasedName (rolesOf phrases)).map Token.identifier =
      aliasedNames ((outlineOf phrases).imports.flatMap ImportStatement.items) := by
  induction phrases with
  | nil => rfl
  | cons phrase phrases ih =>
    rw [rolesOf, List.flatMap_cons, ← rolesOf, tokensAs_append, List.map_append, ih,
      outlineOf_cons, (phrase.addTo_statements _).1, List.flatMap_append, aliasedNames_append]
    congr 1
    cases phrase with
    | importing p => simp [Phrase.roles, Phrase.statements, p.tokensAs_aliasedName_bodyRoles]
    | declaring kind word name => rfl
    | single t =>
      by_cases hkind : t.kind = .identifier <;>
        simp [Phrase.roles, Phrase.statements, hkind, aliasedNames]

/-! ## Statements outside of braces -/

/-- The tokens outside of all braces, when the first token stands inside `depth` of them. -/
def topLevel : Nat → List Token → List Token
  | _, [] => []
  | depth, t :: rest =>
    match t.kind with
    | .openBrace => topLevel (depth + 1) rest
    | .closeBrace => topLevel (depth - 1) rest
    | _ => if depth = 0 then t :: topLevel depth rest else topLevel depth rest

/-- Whether a token can be the first word of a statement. -/
def Token.isHead (t : Token) : Bool := t.kind = .fromWord || (declKind? t.kind).isSome

/-- Some tokens have a statement in them, written out with a given first word. -/
def StatesAt (tokens : List Token) (word : Token) : ImportStatement ⊕ Declaration → Prop
  | .inl s => ∃ (p : ImportPhrase) (front rest : List Token), p.Valid ∧ p.Ends rest ∧
      p.word = word ∧ p.statement = s ∧
      tokens = front ++ p.word :: (p.bodyRoles.map Prod.fst ++ rest)
  | .inr d => ∃ (name : Token) (front rest : List Token), declKind? word.kind = some d.kind ∧
      name.kind = .identifier ∧ name.identifier = d.name ∧ tokens = front ++ word :: name :: rest

theorem StatesAt.append_left {tokens : List Token} {word : Token}
    {statement : ImportStatement ⊕ Declaration} (h : StatesAt tokens word statement)
    (more : List Token) : StatesAt (more ++ tokens) word statement := by
  cases statement with
  | inl s =>
    obtain ⟨p, front, rest, hvalid, hends, hword, hs, rfl⟩ := h
    exact ⟨p, more ++ front, rest, hvalid, hends, hword, hs, by rw [List.append_assoc]⟩
  | inr d =>
    obtain ⟨name, front, rest, hkind, hname, hd, rfl⟩ := h
    exact ⟨name, more ++ front, rest, hkind, hname, hd, by rw [List.append_assoc]⟩

theorem topLevel_cons {depth : Nat} {t : Token}
    (h : t.kind ≠ .openBrace ∧ t.kind ≠ .closeBrace) (rest : List Token) :
    topLevel depth (t :: rest) =
      if depth = 0 then t :: topLevel depth rest else topLevel depth rest := by
  rw [topLevel]
  split
  · next hopen => exact absurd hopen h.1
  · next hclose => exact absurd hclose h.2
  · rfl

/-- The first words of the statements among some tokens. -/
def heads (depth : Nat) (tokens : List Token) : List Token :=
  (topLevel depth tokens).filter Token.isHead

section

variable {depth : Nat} {t : Token} {rest : List Token}

theorem heads_openBrace (h : t.kind = .openBrace) :
    heads depth (t :: rest) = heads (depth + 1) rest := by
  simp [heads, topLevel, h]

theorem heads_closeBrace (h : t.kind = .closeBrace) :
    heads (depth + 1) (t :: rest) = heads depth rest := by
  simp [heads, topLevel, h]

theorem heads_other (hunbraced : t.kind ≠ .openBrace ∧ t.kind ≠ .closeBrace)
    (hunheaded : depth = 0 → t.kind ≠ .fromWord ∧ declKind? t.kind = none) :
    heads depth (t :: rest) = heads depth rest := by
  rw [heads, topLevel_cons hunbraced]
  split
  · next hdepth =>
    obtain ⟨hfrom, hdeclared⟩ := hunheaded hdepth
    rw [List.filter_cons_of_neg (by simp [Token.isHead, hfrom, hdeclared]), heads]
  · rfl

theorem heads_head (hunbraced : t.kind ≠ .openBrace ∧ t.kind ≠ .closeBrace)
    (hhead : t.isHead = true) : heads 0 (t :: rest) = t :: heads 0 rest := by
  rw [heads, topLevel_cons hunbraced, if_pos rfl, List.filter_cons_of_pos hhead, heads]

end

/-- A token that is neither a brace nor the first word of a statement. -/
def Token.Plain (t : Token) : Prop :=
  (t.kind ≠ .openBrace ∧ t.kind ≠ .closeBrace) ∧ t.kind ≠ .fromWord ∧ declKind? t.kind = none

theorem ItemPhrase.Valid.plain {p : ItemPhrase} (h : p.Valid) : ∀ r ∈ p.roles, r.1.Plain := by
  obtain ⟨hname, halias⟩ := h
  unfold ItemPhrase.roles
  cases hcase : p.alias? with
  | none => simp [Token.Plain, hname, declKind?]
  | some pair =>
    obtain ⟨hword, hother⟩ := halias pair hcase
    simp [Token.Plain, hname, hword, hother, declKind?]

/-- Neither braces nor first words of statements stand inside an import. -/
theorem ImportPhrase.Valid.plain_body {p : ImportPhrase} (h : p.Valid) :
    ∀ r ∈ p.bodyRoles, r.1.Plain := by
  intro r hr
  simp only [bodyRoles, segmentRoles, itemRoles, List.mem_append, List.mem_cons, List.mem_map,
    List.mem_flatMap, List.not_mem_nil, or_false] at hr
  rcases hr with (⟨t, ht, rfl⟩ | rfl | ⟨s, hs, rfl | rfl⟩) | rfl | hr | ⟨i, hi, rfl | hr⟩
  · simp [Token.Plain, h.dots t ht, declKind?]
  · simp [Token.Plain, h.segment, declKind?]
  · simp [Token.Plain, (h.segments s hs).1, declKind?]
  · simp [Token.Plain, (h.segments s hs).2, declKind?]
  · simp [Token.Plain, h.importWord, declKind?]
  · exact h.item.plain r hr
  · simp [Token.Plain, (h.items i hi).1, declKind?]
  · exact (h.items i hi).2.plain r hr

theorem heads_append {front : List (Token × Role)} (h : ∀ r ∈ front, r.1.Plain)
    (rest : List Token) : heads 0 (front.map Prod.fst ++ rest) = heads 0 rest := by
  induction front with
  | nil => rfl
  | cons r front ih =>
    obtain ⟨hfirst, hothers⟩ := List.forall_mem_cons.1 h
    rw [List.map_cons, List.cons_append, heads_other hfirst.1 fun _ => hfirst.2, ih hothers]

/-- The first words outside of braces begin the statements, in order. -/
theorem Phrased.forall₂_statements {depth : Nat} {tokens : List Token} {phrases : List Phrase}
    (h : Phrased depth tokens phrases) :
    List.Forall₂ (StatesAt tokens) (heads depth tokens) (phrases.flatMap Phrase.statements) := by
  -- statements are where they were when more tokens stand in front
  have hlater : ∀ (front : List Token) {rest words : List Token} {statements},
      List.Forall₂ (StatesAt rest) words statements →
      List.Forall₂ (StatesAt (front ++ rest)) words statements :=
    fun front _ _ _ hrest => hrest.imp fun _ _ hstates => hstates.append_left front
  induction h with
  | nil => exact .nil
  | @openBrace depth t rest phrases kind _ ih =>
    rw [heads_openBrace kind]
    exact hlater [t] ih
  | @closeBrace depth t rest phrases kind _ ih =>
    rw [heads_closeBrace kind]
    exact hlater [t] ih
  | @other depth t rest phrases unbraced unheaded _ ih =>
    rw [heads_other unbraced unheaded]
    exact hlater [t] ih
  | @declaring kind word name rest phrases word_kind name_kind _ ih =>
    have hunbraced : word.kind ≠ .openBrace ∧ word.kind ≠ .closeBrace := by
      constructor <;>
        · intro hkind
          rw [hkind] at word_kind
          cases word_kind
    have hname : heads 0 (name :: rest) = heads 0 rest :=
      heads_other (by simp [name_kind]) fun _ => by simp [name_kind, declKind?]
    rw [heads_head hunbraced (by simp [Token.isHead, word_kind]), hname]
    exact .cons ⟨name, [], rest, word_kind, name_kind, rfl, rfl⟩ (hlater [word, name] ih)
  | @importing p rest phrases valid ends _ ih =>
    rw [heads_head (by simp [valid.word]) (by simp [Token.isHead, valid.word]),
      heads_append valid.plain_body]
    refine .cons ⟨p, [], rest, valid, ends, rfl, rfl, rfl⟩ ?_
    rw [← List.cons_append]
    exact hlater _ ih

/-! ## Outlines account for their texts -/

/-- The outline of a text, which has the given tokens and is made of the given phrases,
accounts for all identifiers and statements. -/
structure AccountsFor (text : String) (tokens : List Token) (phrases : List Phrase)
    (o : Outline) : Prop where
  /-- Each token has one role, and just the identifiers have one to tell. -/
  roles : (rolesOf phrases).map Prod.fst = tokens ∧ ∀ r ∈ rolesOf phrases, Fits r
  /-- The three roles of identifiers share them out, none twice, each in text order. -/
  shared : (tokensAs .reference (rolesOf phrases) ++ (tokensAs .segment (rolesOf phrases) ++
      tokensAs .aliasedName (rolesOf phrases))).Perm (tokens.filter (·.kind = .identifier)) ∧
    tokens.Nodup ∧ ∀ role, (tokensAs role (rolesOf phrases)).Sublist tokens
  identifiers : o.identifiers = (tokensAs .reference (rolesOf phrases)).map Token.identifier
  segments : o.imports.flatMap (·.package.segments) =
    (tokensAs .segment (rolesOf phrases)).map Token.lexeme
  aliased : aliasedNames (o.imports.flatMap ImportStatement.items) =
    (tokensAs .aliasedName (rolesOf phrases)).map Token.identifier
  /-- The extent of an identifier goes from the position of its offset to the position behind
  it, and holds its text. -/
  extents : ∀ t ∈ tokens, t.kind = .identifier →
    positionAt text t.startOffset = ⟨t.identifier.span.line, t.identifier.span.start⟩ ∧
    positionAt text t.stopOffset = ⟨t.identifier.span.line, t.identifier.span.stop⟩ ∧
    holds text t.identifier.span t.identifier.text = true
  declared : ∀ d ∈ o.declarations, d.name ∈ o.identifiers
  bound : ∀ s ∈ o.imports, ∀ item ∈ s.items, item.binding ∈ o.identifiers
  /-- Each first word outside of all braces begins a statement, and the outline lists the
  statements in that order. -/
  statements : ∃ statements, List.Forall₂ (StatesAt tokens) (heads 0 tokens) statements ∧
    o.imports = statements.filterMap Sum.getLeft? ∧
    o.declarations = statements.filterMap Sum.getRight?
  nonempty : ∀ s ∈ o.imports, s.package.segments ≠ [] ∧ s.items ≠ []

/-- The statements of an outline are those of its phrases. -/
theorem outlineOf_statements (phrases : List Phrase) :
    (outlineOf phrases).imports = (phrases.flatMap Phrase.statements).filterMap Sum.getLeft? ∧
      (outlineOf phrases).declarations =
        (phrases.flatMap Phrase.statements).filterMap Sum.getRight? := by
  induction phrases with
  | nil => exact ⟨rfl, rfl⟩
  | cons phrase phrases ih =>
    obtain ⟨himports, hdeclarations⟩ := phrase.addTo_statements (outlineOf phrases)
    rw [outlineOf_cons, himports, hdeclarations, ih.1, ih.2, List.flatMap_cons,
      List.filterMap_append, List.filterMap_append]
    exact ⟨rfl, rfl⟩

/-- Every import is written with a segment. -/
theorem segments_ne_nil_of_mem {phrases : List Phrase} {s : ImportStatement}
    (h : s ∈ (outlineOf phrases).imports) : s.package.segments ≠ [] := by
  rw [(outlineOf_statements phrases).1] at h
  obtain ⟨statement, hstatement, hs⟩ := List.mem_filterMap.1 h
  obtain ⟨phrase, -, hphrase⟩ := List.mem_flatMap.1 hstatement
  cases phrase with
  | importing p =>
    obtain rfl := List.mem_singleton.1 hphrase
    obtain rfl := Option.some.inj hs
    exact List.cons_ne_nil _ _
  | declaring kind word name =>
    obtain rfl := List.mem_singleton.1 hphrase
    cases hs
  | single t => cases hphrase

theorem Phrased.accountsFor {text : String} {tokens : List Token} {phrases : List Phrase}
    (htokens : tokenize text = .ok tokens) (h : Phrased 0 tokens phrases) :
    AccountsFor text tokens phrases (outlineOf phrases) where
  roles := ⟨h.tokens_eq, h.fits⟩
  shared := by
    refine ⟨?_, nodup_tokenize htokens, fun role => ?_⟩
    · have hperm := perm_tokensAs h.fits
      rwa [h.tokens_eq] at hperm
    · have hsublist := tokensAs_sublist role (rolesOf phrases)
      rwa [h.tokens_eq] at hsublist
  identifiers := identifiers_outlineOf phrases
  segments := (tokensAs_segment_rolesOf phrases).symm
  aliased := (tokensAs_aliasedName_rolesOf phrases).symm
  extents t ht hkind := by
    have hclean := (isIdentifier_of_mem_tokenize htokens ht hkind).isClean
    obtain ⟨hline, hcolumn⟩ := Cursor.advanceAll_of_clean hclean t.start
    refine ⟨positionAt_startOffset htokens ht, ?_, holds_identifier htokens ht hkind⟩
    rw [positionAt_stopOffset htokens ht, Token.stop, Cursor.position, hline, hcolumn,
      String.length_toList]
    rfl
  declared _ hd := name_mem_identifiers hd
  bound _ hs _ hitem := binding_mem_identifiers hs hitem
  statements := ⟨_, h.forall₂_statements, outlineOf_statements phrases⟩
  nonempty _ hs := ⟨segments_ne_nil_of_mem hs, List.cons_ne_nil _ _⟩

/-- Every outline accounts for the identifiers and the statements of its text. -/
theorem parse_accountsFor {text : String} {o : Outline} (h : Outline.parse text = .ok o) :
    ∃ tokens, tokenize text = .ok tokens ∧ (∃ phrases, Phrased 0 tokens phrases) ∧
      ∀ phrases, Phrased 0 tokens phrases → AccountsFor text tokens phrases o := by
  obtain ⟨tokens, phrases, htokens, hphrases, rfl⟩ := parse_eq_ok_iff.1 h
  refine ⟨tokens, htokens, ⟨phrases, hphrases⟩, fun phrases' hphrases' => ?_⟩
  have hparse := parse_eq_ok_iff.2 ⟨tokens, phrases', htokens, hphrases', rfl⟩
  rw [Except.ok.inj (h.symm.trans hparse)]
  exact hphrases'.accountsFor htokens

/-- A text with an import from a package of two segments, one of whose items has an alias, and
with the word of a declaration inside of braces. -/
def relayText : String := "from .lib.shapes import Shape as S, Circle\ntype T {type: S}"

/-- The outline of the text. -/
def relayOutline : Outline where
  imports := [⟨⟨1, ["lib", "shapes"]⟩, ⟨⟨"Shape", ⟨0, 24, 29⟩⟩, some ⟨"S", ⟨0, 33, 34⟩⟩⟩,
    [⟨⟨"Circle", ⟨0, 36, 42⟩⟩, none⟩]⟩]
  declarations := [⟨.type, ⟨"T", ⟨1, 5, 6⟩⟩⟩]
  identifiers := [⟨"S", ⟨0, 33, 34⟩⟩, ⟨"Circle", ⟨0, 36, 42⟩⟩, ⟨"T", ⟨1, 5, 6⟩⟩, ⟨"S", ⟨1, 14, 15⟩⟩]

/-- The alias, the name without alias, the declared name and the use are listed; the segments
and the name behind the alias are not, and the word inside the braces declares nothing. -/
theorem parse_accountsFor_relay :
    Outline.parse relayText = .ok relayOutline ∧
      ∃ tokens, tokenize relayText = .ok tokens ∧ (∃ phrases, Phrased 0 tokens phrases) ∧
        ∀ phrases, Phrased 0 tokens phrases →
          AccountsFor relayText tokens phrases relayOutline := by
  have hparse : Outline.parse relayText = .ok relayOutline :=
    eq_ok_of_toOption (by decide +kernel)
  exact ⟨hparse, parse_accountsFor hparse⟩

end SymbolAtlas
