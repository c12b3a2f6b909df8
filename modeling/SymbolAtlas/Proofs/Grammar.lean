import Mathlib.Data.List.Nodup
import SymbolAtlas.Outline.Parser
import SymbolAtlas.Proofs.Results

/-!
# The grammar of module outlines

The tokens of a module are a row of phrases: import statements, declarations and
single tokens, the first two outside of all braces only.  A phrase says for each
of its tokens which role it plays, and the outline of a module follows from its
phrases alone.  Reading an outline succeeds exactly when the tokens are such a
row of phrases, which is then determined by them.

## Main Definitions

* `Role`: what a token is there for.
* `ItemPhrase`, `ImportPhrase`, `Phrase`: phrases with all their tokens.
* `Phrased`: some tokens inside a number of open braces are a row of phrases.
* `outlineOf`: the outline that a row of phrases stands for.

## Main Statements

* `outlineFrom_eq_ok_iff`: the reader accepts exactly the rows of phrases.
* `identifiers_outlineOf`: the identifiers of an outline are the references.
-/

namespace SymbolAtlas

/-- What a token is there for.  Identifiers are package segments, names that get an
alias where they are imported, or references to names. -/
inductive Role where
  | segment
  | aliasedName
  | reference
  | other
deriving DecidableEq, Repr

/-! ## Phrases -/

/-- One imported name as it is written, with the word and the name of its alias. -/
structure ItemPhrase where
  name : Token
  alias? : Option (Token × Token)

/-- An import statement as it is written. -/
structure ImportPhrase where
  word : Token
  dots : List Token
  segment : Token
  /-- Further segments, each with the dot in front of it. -/
  segments : List (Token × Token)
  importWord : Token
  item : ItemPhrase
  /-- Further items, each with the comma in front of it. -/
  items : List (Token × ItemPhrase)

/-- A part of a module: an import, a declaration, or a token by itself. -/
inductive Phrase where
  | importing (p : ImportPhrase)
  | declaring (kind : DeclKind) (word name : Token)
  | single (t : Token)

namespace ItemPhrase

/-- The tokens of an item with their roles. -/
def roles (p : ItemPhrase) : List (Token × Role) :=
  match p.alias? with
  | none => [(p.name, .reference)]
  | some (word, other) => [(p.name, .aliasedName), (word, .other), (other, .reference)]

/-- The item that is written. -/
def item (p : ItemPhrase) : ImportItem :=
  ⟨p.name.identifier, p.alias?.map (·.2.identifier)⟩

/-- The tokens of an item have the kinds that they need. -/
def Valid (p : ItemPhrase) : Prop :=
  p.name.kind = .identifier ∧
    ∀ a ∈ p.alias?, a.1.kind = .asWord ∧ a.2.kind = .identifier

/-- An item without alias is not followed by the word that introduces one. -/
def Ends (p : ItemPhrase) (rest : List Token) : Prop :=
  p.alias? = none → ∀ t ∈ rest.head?, t.kind ≠ .asWord

end ItemPhrase

namespace ImportPhrase

/-- The tokens of the further segments of a package. -/
def segmentRoles (segments : List (Token × Token)) : List (Token × Role) :=
  segments.flatMap fun s => [(s.1, .other), (s.2, .segment)]

/-- The tokens of the further items of an import. -/
def itemRoles (items : List (Token × ItemPhrase)) : List (Token × Role) :=
  items.flatMap fun i => (i.1, .other) :: i.2.roles

theorem itemRoles_cons (i : Token × ItemPhrase) (items : List (Token × ItemPhrase)) :
    itemRoles (i :: items) = (i.1, .other) :: (i.2.roles ++ itemRoles items) := by
  simp [itemRoles]

/-- The tokens of an import behind its first word, with their roles. -/
def bodyRoles (p : ImportPhrase) : List (Token × Role) :=
  p.dots.map (·, .other) ++ (p.segment, .segment) :: segmentRoles p.segments ++
    (p.importWord, .other) :: (p.item.roles ++ itemRoles p.items)

/-- The statement that is written. -/
def statement (p : ImportPhrase) : ImportStatement :=
  { package := ⟨p.dots.length, p.segment.lexeme :: p.segments.map (·.2.lexeme)⟩
    first := p.item.item
    others := p.items.map (·.2.item) }

/-- The last item. -/
def lastItem (p : ImportPhrase) : ItemPhrase := (p.items.getLast?.map (·.2)).getD p.item

/-- The tokens of an import have the kinds that they need. -/
structure Valid (p : ImportPhrase) : Prop where
  word : p.word.kind = .fromWord
  dots : ∀ t ∈ p.dots, t.kind = .dot
  segment : p.segment.kind = .identifier
  segments : ∀ s ∈ p.segments, s.1.kind = .dot ∧ s.2.kind = .identifier
  importWord : p.importWord.kind = .importWord
  item : p.item.Valid
  items : ∀ i ∈ p.items, i.1.kind = .comma ∧ i.2.Valid

/-- All items, in order. -/
def itemPhrases (p : ImportPhrase) : List ItemPhrase := p.item :: p.items.map Prod.snd

theorem items_statement (p : ImportPhrase) :
    p.statement.items = p.itemPhrases.map ItemPhrase.item := by
  simp [statement, ImportStatement.items, itemPhrases, Function.comp_def]

/-- An import is not followed by a token that would continue it. -/
def Ends (p : ImportPhrase) (rest : List Token) : Prop :=
  (∀ t ∈ rest.head?, t.kind ≠ .comma) ∧ p.lastItem.Ends rest

end ImportPhrase

namespace Phrase

/-- The tokens of a phrase with their roles. -/
def roles : Phrase → List (Token × Role)
  | importing p => (p.word, .other) :: p.bodyRoles
  | declaring _ word name => [(word, .other), (name, .reference)]
  | single t => [(t, if t.kind = .identifier then .reference else .other)]

/-- What a phrase adds to an outline. -/
def addTo (o : Outline) : Phrase → Outline
  | importing p => o.importing p.statement
  | declaring kind _ name => o.declare ⟨kind, name.identifier⟩
  | single t => if t.kind = .identifier then o.mention t.identifier else o

end Phrase

/-- The tokens of some phrases with their roles, in text order. -/
def rolesOf (phrases : List Phrase) : List (Token × Role) := phrases.flatMap Phrase.roles

/-- The outline that a row of phrases stands for. -/
def outlineOf (phrases : List Phrase) : Outline :=
  phrases.foldr (fun phrase o => phrase.addTo o) .empty

/-- Some tokens inside `depth` open braces, which they close, are a row of
phrases.  Imports and declarations stand outside of all braces, where their first
words cannot stand by themselves. -/
inductive Phrased : Nat → List Token → List Phrase → Prop where
  | nil : Phrased 0 [] []
  | openBrace {depth : Nat} {t : Token} {rest : List Token} {phrases : List Phrase}
      (kind : t.kind = .openBrace) (others : Phrased (depth + 1) rest phrases) :
      Phrased depth (t :: rest) (.single t :: phrases)
  | closeBrace {depth : Nat} {t : Token} {rest : List Token} {phrases : List Phrase}
      (kind : t.kind = .closeBrace) (others : Phrased depth rest phrases) :
      Phrased (depth + 1) (t :: rest) (.single t :: phrases)
  | other {depth : Nat} {t : Token} {rest : List Token} {phrases : List Phrase}
      (unbraced : t.kind ≠ .openBrace ∧ t.kind ≠ .closeBrace)
      (unheaded : depth = 0 → t.kind ≠ .fromWord ∧ declKind? t.kind = none)
      (others : Phrased depth rest phrases) :
      Phrased depth (t :: rest) (.single t :: phrases)
  | declaring {kind : DeclKind} {word name : Token} {rest : List Token} {phrases : List Phrase}
      (word_kind : declKind? word.kind = some kind) (name_kind : name.kind = .identifier)
      (others : Phrased 0 rest phrases) :
      Phrased 0 (word :: name :: rest) (.declaring kind word name :: phrases)
  | importing {p : ImportPhrase} {rest : List Token} {phrases : List Phrase}
      (valid : p.Valid) (ends : p.Ends rest) (others : Phrased 0 rest phrases) :
      Phrased 0 (p.word :: (p.bodyRoles.map Prod.fst ++ rest)) (.importing p :: phrases)

/-! ## The readers, one by one -/

theorem expect_eq_ok_iff {kind : Token.Kind} {what : Expectation} {tokens rest : List Token}
    {t : Token} : expect kind what tokens = .ok (t, rest) ↔ tokens = t :: rest ∧ t.kind = kind := by
  cases tokens with
  | nil => simp [expect]
  | cons u us =>
    simp only [expect]
    split
    · simp only [Except.ok.injEq, Prod.mk.injEq, List.cons.injEq]
      grind
    · simp only [reduceCtorEq, List.cons.injEq, false_iff]
      grind

theorem after?_eq_some_iff {kind : Token.Kind} {tokens rest : List Token} :
    after? kind tokens = some rest ↔ ∃ t, tokens = t :: rest ∧ t.kind = kind := by
  cases tokens with
  | nil => simp [after?]
  | cons u us =>
    simp only [after?]
    split
    · simp only [Option.some.injEq, List.cons.injEq]
      grind
    · simp only [reduceCtorEq, List.cons.injEq, false_iff]
      grind

theorem after?_eq_none_iff {kind : Token.Kind} {tokens : List Token} :
    after? kind tokens = none ↔ ∀ t ∈ tokens.head?, t.kind ≠ kind := by
  cases tokens with
  | nil => simp [after?]
  | cons u us => simp [after?]

theorem importItem_eq_ok_iff {tokens rest : List Token} {item : ImportItem} :
    importItem tokens = .ok (item, rest) ↔
      ∃ p : ItemPhrase, p.Valid ∧ p.Ends rest ∧ tokens = p.roles.map Prod.fst ++ rest ∧
        item = p.item := by
  constructor
  · intro h
    unfold importItem at h
    split at h
    · cases h
    · next name left hname =>
      obtain ⟨rfl, hkind⟩ := expect_eq_ok_iff.1 hname
      split at h
      · next hnone =>
        obtain ⟨rfl, rfl⟩ := Prod.mk.inj (Except.ok.inj h)
        exact ⟨⟨name, none⟩, ⟨hkind, by simp⟩, fun _ => after?_eq_none_iff.1 hnone, rfl, rfl⟩
      · next left' hsome =>
        obtain ⟨word, rfl, hword⟩ := after?_eq_some_iff.1 hsome
        split at h
        · cases h
        · next other left'' hother =>
          obtain ⟨rfl, hotherKind⟩ := expect_eq_ok_iff.1 hother
          obtain ⟨rfl, rfl⟩ := Prod.mk.inj (Except.ok.inj h)
          exact ⟨⟨name, some (word, other)⟩, ⟨hkind, by simp [hword, hotherKind]⟩, nofun, rfl, rfl⟩
  · rintro ⟨⟨name, alias?⟩, ⟨hname, halias⟩, hends, rfl, rfl⟩
    unfold importItem
    cases alias? with
    | none =>
      have hafter : after? .asWord rest = none := after?_eq_none_iff.2 (hends rfl)
      simp [ItemPhrase.roles, ItemPhrase.item, expect_eq_ok_iff.2 ⟨rfl, hname⟩, hafter]
    | some pair =>
      obtain ⟨word, other⟩ := pair
      obtain ⟨hword, hother⟩ := halias _ rfl
      simp [ItemPhrase.roles, ItemPhrase.item, expect_eq_ok_iff.2 ⟨rfl, hname⟩,
        after?_eq_some_iff.2 ⟨word, rfl, hword⟩, expect_eq_ok_iff.2 ⟨rfl, hother⟩]

/-- The segments behind a first one: if a dot follows, more segments are read. -/
theorem packageSegments_eq (tokens : List Token) :
    packageSegments tokens = (expect .identifier .packageName tokens).bind fun s =>
      match after? .dot s.2 with
      | none => .ok ([s.1.lexeme], s.2)
      | some more => (packageSegments more).map (Prod.map (s.1.lexeme :: ·) id) := by
  rw [packageSegments]
  split
  · next hname => rw [hname]; rfl
  · next segment rest hname =>
    split
    · next hdot => simp only [hname, Except.bind, hdot]
    · next more hdot =>
      simp only [hname, Except.bind, hdot]
      cases packageSegments more <;> rfl

theorem packageSegments_sound {tokens rest : List Token} {segments : List String}
    (h : packageSegments tokens = .ok (segments, rest)) :
    ∃ (first : Token) (more : List (Token × Token)), first.kind = .identifier ∧
      (∀ s ∈ more, s.1.kind = .dot ∧ s.2.kind = .identifier) ∧
      tokens = first :: ((ImportPhrase.segmentRoles more).map Prod.fst ++ rest) ∧
      segments = first.lexeme :: more.map (·.2.lexeme) := by
  fun_induction packageSegments tokens generalizing segments rest with
  | case1 => cases h
  | case2 tokens segment left hfirst hnone =>
    obtain ⟨rfl, rfl⟩ := Prod.mk.inj (Except.ok.inj h)
    obtain ⟨rfl, hkind⟩ := expect_eq_ok_iff.1 hfirst
    exact ⟨segment, [], hkind, by simp, rfl, rfl⟩
  | case3 => cases h
  | case4 tokens segment left hfirst left' hdot _ more left'' hmore ih =>
    obtain ⟨rfl, rfl⟩ := Prod.mk.inj (Except.ok.inj h)
    obtain ⟨rfl, hkind⟩ := expect_eq_ok_iff.1 hfirst
    obtain ⟨dot, rfl, hdotKind⟩ := after?_eq_some_iff.1 hdot
    obtain ⟨next, others, hnext, hothers, rfl, rfl⟩ := ih hmore
    refine ⟨segment, (dot, next) :: others, hkind, ?_, by simp [ImportPhrase.segmentRoles], rfl⟩
    exact List.forall_mem_cons.2 ⟨⟨hdotKind, hnext⟩, hothers⟩

theorem packageSegments_complete {first : Token} {more : List (Token × Token)}
    {rest : List Token} (hfirst : first.kind = .identifier)
    (hmore : ∀ s ∈ more, s.1.kind = .dot ∧ s.2.kind = .identifier)
    (hrest : ∀ t ∈ rest.head?, t.kind ≠ .dot) :
    packageSegments (first :: ((ImportPhrase.segmentRoles more).map Prod.fst ++ rest)) =
      .ok (first.lexeme :: more.map (·.2.lexeme), rest) := by
  induction more generalizing first with
  | nil =>
    have hread : expect .identifier .packageName (first :: rest) = .ok (first, rest) :=
      expect_eq_ok_iff.2 ⟨rfl, hfirst⟩
    have hafter : after? .dot rest = none := after?_eq_none_iff.2 hrest
    simp only [ImportPhrase.segmentRoles, List.flatMap_nil, List.map_nil, List.nil_append]
    rw [packageSegments_eq, hread]
    simp only [Except.bind, hafter]
  | cons s more ih =>
    obtain ⟨⟨hdot, hsegment⟩, hothers⟩ := List.forall_mem_cons.1 hmore
    have hnext := ih hsegment hothers
    have htail : (ImportPhrase.segmentRoles (s :: more)).map Prod.fst ++ rest =
        s.1 :: s.2 :: ((ImportPhrase.segmentRoles more).map Prod.fst ++ rest) := by
      simp [ImportPhrase.segmentRoles]
    have hread : expect .identifier .packageName
        (first :: ((ImportPhrase.segmentRoles (s :: more)).map Prod.fst ++ rest)) =
        .ok (first, (ImportPhrase.segmentRoles (s :: more)).map Prod.fst ++ rest) :=
      expect_eq_ok_iff.2 ⟨rfl, hfirst⟩
    have hafter : after? .dot ((ImportPhrase.segmentRoles (s :: more)).map Prod.fst ++ rest) =
        some (s.2 :: ((ImportPhrase.segmentRoles more).map Prod.fst ++ rest)) :=
      after?_eq_some_iff.2 ⟨s.1, htail, hdot⟩
    rw [packageSegments_eq, hread]
    simp only [Except.bind, hafter, hnext]
    rfl

/-- The items behind a first one: if a comma follows, more items are read. -/
theorem importItems_eq (tokens : List Token) :
    importItems tokens = (importItem tokens).bind fun s =>
      match after? .comma s.2 with
      | none => .ok (s.1, [], s.2)
      | some more => (importItems more).map fun m => (s.1, m.1 :: m.2.1, m.2.2) := by
  rw [importItems]
  split
  · next hitem => rw [hitem]; rfl
  · next item rest hitem =>
    split
    · next hcomma => simp only [hitem, Except.bind, hcomma]
    · next more hcomma =>
      simp only [hitem, Except.bind, hcomma]
      cases importItems more <;> rfl

theorem importItems_sound {tokens rest : List Token} {first : ImportItem}
    {others : List ImportItem} (h : importItems tokens = .ok (first, others, rest)) :
    ∃ (item : ItemPhrase) (more : List (Token × ItemPhrase)), item.Valid ∧
      (∀ i ∈ more, i.1.kind = .comma ∧ i.2.Valid) ∧
      (∀ t ∈ rest.head?, t.kind ≠ .comma) ∧ ((more.getLast?.map (·.2)).getD item).Ends rest ∧
      tokens = item.roles.map Prod.fst ++ ((ImportPhrase.itemRoles more).map Prod.fst ++ rest) ∧
      first = item.item ∧ others = more.map (·.2.item) := by
  fun_induction importItems tokens generalizing first others rest with
  | case1 => cases h
  | case2 tokens item left hitem hnone =>
    obtain ⟨rfl, hrest⟩ := Prod.mk.inj (Except.ok.inj h)
    obtain ⟨rfl, rfl⟩ := Prod.mk.inj hrest
    obtain ⟨p, hvalid, hends, rfl, rfl⟩ := importItem_eq_ok_iff.1 hitem
    exact ⟨p, [], hvalid, by simp, after?_eq_none_iff.1 hnone, hends, rfl, rfl, rfl⟩
  | case3 => cases h
  | case4 tokens item left hitem left' hcomma _ next more left'' hmore ih =>
    obtain ⟨rfl, hrest⟩ := Prod.mk.inj (Except.ok.inj h)
    obtain ⟨rfl, rfl⟩ := Prod.mk.inj hrest
    obtain ⟨p, hvalid, -, rfl, rfl⟩ := importItem_eq_ok_iff.1 hitem
    obtain ⟨comma, rfl, hcommaKind⟩ := after?_eq_some_iff.1 hcomma
    obtain ⟨q, others, hq, hothers, hnone, hends, rfl, rfl, rfl⟩ := ih hmore
    refine ⟨p, (comma, q) :: others, hvalid, ?_, hnone, ?_, ?_, rfl, rfl⟩
    · exact List.forall_mem_cons.2 ⟨⟨hcommaKind, hq⟩, hothers⟩
    · rw [List.getLast?_cons]
      cases hlast : others.getLast? <;> simpa [hlast] using hends
    · simp [ImportPhrase.itemRoles]

theorem importItems_complete {item : ItemPhrase} {more : List (Token × ItemPhrase)}
    {rest : List Token} (hitem : item.Valid) (hmore : ∀ i ∈ more, i.1.kind = .comma ∧ i.2.Valid)
    (hcomma : ∀ t ∈ rest.head?, t.kind ≠ .comma)
    (hends : ((more.getLast?.map (·.2)).getD item).Ends rest) :
    importItems (item.roles.map Prod.fst ++ ((ImportPhrase.itemRoles more).map Prod.fst ++ rest)) =
      .ok (item.item, more.map (·.2.item), rest) := by
  induction more generalizing item with
  | nil =>
    have hread : importItem (item.roles.map Prod.fst ++
        ((ImportPhrase.itemRoles []).map Prod.fst ++ rest)) = .ok (item.item, rest) :=
      importItem_eq_ok_iff.2 ⟨item, hitem, hends, rfl, rfl⟩
    have hafter : after? .comma rest = none := after?_eq_none_iff.2 hcomma
    rw [importItems_eq, hread]
    simp only [Except.bind, hafter]
    rfl
  | cons i more ih =>
    obtain ⟨⟨hcommaKind, hi⟩, hothers⟩ := List.forall_mem_cons.1 hmore
    have hnext := ih hi hothers (by
      rw [List.getLast?_cons] at hends
      cases hlast : more.getLast? <;> simpa [hlast] using hends)
    have htail : (ImportPhrase.itemRoles (i :: more)).map Prod.fst ++ rest =
        i.1 :: (i.2.roles.map Prod.fst ++
          ((ImportPhrase.itemRoles more).map Prod.fst ++ rest)) := by
      simp [ImportPhrase.itemRoles]
    -- an item that a comma follows is not followed by an alias
    have hread : importItem (item.roles.map Prod.fst ++
        ((ImportPhrase.itemRoles (i :: more)).map Prod.fst ++ rest)) =
        .ok (item.item, (ImportPhrase.itemRoles (i :: more)).map Prod.fst ++ rest) := by
      refine importItem_eq_ok_iff.2 ⟨item, hitem, fun _ t ht => ?_, rfl, rfl⟩
      rw [htail] at ht
      obtain rfl : i.1 = t := by simpa using ht
      rw [hcommaKind]
      decide
    have hafter : after? .comma ((ImportPhrase.itemRoles (i :: more)).map Prod.fst ++ rest) =
        some (i.2.roles.map Prod.fst ++ ((ImportPhrase.itemRoles more).map Prod.fst ++ rest)) :=
      after?_eq_some_iff.2 ⟨i.1, htail, hcommaKind⟩
    rw [importItems_eq, hread]
    simp only [Except.bind, hafter, hnext]
    rfl

theorem importStatement_sound {tokens rest : List Token} {s : ImportStatement} {word : Token}
    (hword : word.kind = .fromWord) (h : importStatement tokens = .ok (s, rest)) :
    ∃ p : ImportPhrase, p.word = word ∧ p.Valid ∧ p.Ends rest ∧
      tokens = p.bodyRoles.map Prod.fst ++ rest ∧ s = p.statement := by
  unfold importStatement at h
  split at h
  · cases h
  · next segments left hsegments =>
    obtain ⟨segment, more, hsegment, hmore, hdrop, rfl⟩ := packageSegments_sound hsegments
    split at h
    · cases h
    · next importWord left' himport =>
      obtain ⟨rfl, himportKind⟩ := expect_eq_ok_iff.1 himport
      split at h
      · cases h
      · next first others left'' hitems =>
        obtain ⟨rfl, rfl⟩ := Prod.mk.inj (Except.ok.inj h)
        obtain ⟨item, items, hitem, hothers, hcomma, hends, rfl, rfl, rfl⟩ :=
          importItems_sound hitems
        refine ⟨⟨word, tokens.takeWhile (·.kind = .dot), segment, more, importWord, item, items⟩,
          rfl, ⟨hword, ?_, hsegment, hmore, himportKind, hitem, hothers⟩, ⟨hcomma, hends⟩, ?_, rfl⟩
        · intro t ht
          simpa using List.all_eq_true.1 List.all_takeWhile t ht
        · calc tokens
              = tokens.takeWhile (·.kind = .dot) ++ tokens.dropWhile (·.kind = .dot) :=
                List.takeWhile_append_dropWhile.symm
            _ = _ := by
                rw [hdrop]
                simp [ImportPhrase.bodyRoles, Function.comp_def]

theorem importStatement_complete {p : ImportPhrase} {rest : List Token} (hvalid : p.Valid)
    (hends : p.Ends rest) :
    importStatement (p.bodyRoles.map Prod.fst ++ rest) = .ok (p.statement, rest) := by
  have hsplit : p.bodyRoles.map Prod.fst ++ rest =
      p.dots ++ p.segment :: ((ImportPhrase.segmentRoles p.segments).map Prod.fst ++
        p.importWord :: (p.item.roles.map Prod.fst ++
          ((ImportPhrase.itemRoles p.items).map Prod.fst ++ rest))) := by
    simp [ImportPhrase.bodyRoles, Function.comp_def]
  have hdots : ∀ t ∈ p.dots, decide (t.kind = .dot) = true := by
    simpa using hvalid.dots
  have himport : ∀ t ∈ (p.importWord :: (p.item.roles.map Prod.fst ++
      ((ImportPhrase.itemRoles p.items).map Prod.fst ++ rest))).head?, t.kind ≠ .dot := by
    simp [hvalid.importWord]
  have hsegments := packageSegments_complete hvalid.segment hvalid.segments himport
  unfold importStatement
  rw [hsplit, List.takeWhile_append_of_pos hdots, List.dropWhile_append_of_pos hdots,
    List.takeWhile_cons_of_neg (by simp [hvalid.segment]),
    List.dropWhile_cons_of_neg (by simp [hvalid.segment]), hsegments]
  simp only [expect_eq_ok_iff.2 ⟨rfl, hvalid.importWord⟩,
    importItems_complete hvalid.item hvalid.items hends.1 hends.2, List.append_nil]
  rfl

/-! ## The reader of outlines -/

section Steps

variable {braces rest : List Token} {t : Token}

theorem outlineFrom_openBrace (h : t.kind = .openBrace) :
    outlineFrom braces (t :: rest) = outlineFrom (t :: braces) rest := by
  rw [outlineFrom.eq_def]
  simp only [h]

theorem outlineFrom_closeBrace {brace : Token} (h : t.kind = .closeBrace) :
    outlineFrom (brace :: braces) (t :: rest) = outlineFrom braces rest := by
  rw [outlineFrom.eq_def]
  simp only [h]

theorem outlineFrom_unmatched (h : t.kind = .closeBrace) :
    outlineFrom [] (t :: rest) = .error (.unmatchedBrace t.position) := by
  rw [outlineFrom.eq_def]
  simp only [h]

theorem outlineFrom_identifier (h : t.kind = .identifier) :
    outlineFrom braces (t :: rest) = (outlineFrom braces rest).map (.mention t.identifier) := by
  rw [outlineFrom.eq_def]
  simp only [h]

theorem outlineFrom_fromWord (h : t.kind = .fromWord) :
    outlineFrom [] (t :: rest) =
      (importStatement rest).bind fun s => (outlineFrom [] s.2).map (.importing s.1) := by
  rw [outlineFrom.eq_def]
  simp only [h, List.isEmpty_nil, Bool.true_and, decide_true, if_true]
  split
  · next hstatement => rw [hstatement]; rfl
  · next hstatement => rw [hstatement]; rfl

theorem outlineFrom_declaring {kind : DeclKind} (h : declKind? t.kind = some kind) :
    outlineFrom [] (t :: rest) = (expect .identifier .declarationName rest).bind fun s =>
      (outlineFrom [] s.2).map (.declare ⟨kind, s.1.identifier⟩) := by
  rw [outlineFrom.eq_def]
  dsimp only
  split
  · next hkind => rw [hkind] at h; cases h
  · next hkind => rw [hkind] at h; cases h
  · next hkind => rw [hkind] at h; cases h
  · have hfrom : t.kind ≠ .fromWord := by
      intro hkind
      rw [hkind] at h
      cases h
    rw [if_neg (by simp [hfrom])]
    simp only [h, List.isEmpty_nil]
    split
    · next hname => rw [hname]; rfl
    · next hname => rw [hname]; rfl

/-- Any other token is passed over. -/
theorem outlineFrom_passed (hunbraced : t.kind ≠ .openBrace ∧ t.kind ≠ .closeBrace)
    (hidentifier : t.kind ≠ .identifier)
    (hunheaded : braces = [] → t.kind ≠ .fromWord ∧ declKind? t.kind = none) :
    outlineFrom braces (t :: rest) = outlineFrom braces rest := by
  rw [outlineFrom.eq_def]
  dsimp only
  split
  · next hkind => exact absurd hkind hunbraced.1
  · next hkind => exact absurd hkind hunbraced.2
  · next hkind => exact absurd hkind hidentifier
  · cases braces with
    | nil =>
      obtain ⟨hfrom, hdeclared⟩ := hunheaded rfl
      rw [if_neg (by simp [hfrom])]
      split
      · next hsome => rw [hdeclared] at hsome; cases hsome
      · rfl
    | cons brace outer => rfl

end Steps

theorem outlineOf_cons (phrase : Phrase) (phrases : List Phrase) :
    outlineOf (phrase :: phrases) = phrase.addTo (outlineOf phrases) := rfl

theorem outlineOf_mention {t : Token} {phrases : List Phrase} (h : t.kind = .identifier) :
    outlineOf (.single t :: phrases) = (outlineOf phrases).mention t.identifier :=
  if_pos h

theorem outlineOf_passed {t : Token} {phrases : List Phrase} (h : t.kind ≠ .identifier) :
    outlineOf (.single t :: phrases) = outlineOf phrases :=
  if_neg h

theorem outlineFrom_sound {braces tokens : List Token} {o : Outline}
    (h : outlineFrom braces tokens = .ok o) :
    ∃ phrases, Phrased braces.length tokens phrases ∧ o = outlineOf phrases := by
  fun_induction outlineFrom braces tokens generalizing o with
  | case1 => cases h
  | case2 braces hbraces =>
    obtain rfl : braces = [] := List.getLast?_eq_none_iff.1 hbraces
    exact ⟨[], .nil, (Except.ok.inj h).symm⟩
  | case3 braces t rest hkind ih =>
    obtain ⟨phrases, hphrases, rfl⟩ := ih h
    exact ⟨.single t :: phrases, .openBrace hkind hphrases,
      (outlineOf_passed (by simp [hkind])).symm⟩
  | case4 => cases h
  | case5 t rest hkind brace outer ih =>
    obtain ⟨phrases, hphrases, rfl⟩ := ih h
    exact ⟨.single t :: phrases, .closeBrace hkind hphrases,
      (outlineOf_passed (by simp [hkind])).symm⟩
  | case6 braces t rest hkind ih =>
    obtain ⟨o', ho', rfl⟩ := map_eq_ok_iff.1 h
    obtain ⟨phrases, hphrases, rfl⟩ := ih ho'
    refine ⟨.single t :: phrases, .other (by simp [hkind]) (fun _ => ?_) hphrases,
      (outlineOf_mention hkind).symm⟩
    simp [hkind, declKind?]
  | case7 => cases h
  | case8 braces t rest s left hstatement _ _ _ _ hfrom ih =>
    obtain ⟨hbraces, hkind⟩ := Bool.and_eq_true_iff.1 hfrom
    obtain rfl := List.isEmpty_iff.1 hbraces
    obtain ⟨p, rfl, hvalid, hends, rfl, rfl⟩ :=
      importStatement_sound (of_decide_eq_true hkind) hstatement
    obtain ⟨o', ho', rfl⟩ := map_eq_ok_iff.1 h
    obtain ⟨phrases, hphrases, rfl⟩ := ih ho'
    exact ⟨.importing p :: phrases, .importing hvalid hends hphrases, rfl⟩
  | case9 => cases h
  | case10 braces t rest kind hbraces name left hname _ _ _ _ _ hkind ih =>
    obtain rfl := List.isEmpty_iff.1 hbraces
    obtain ⟨rfl, hnameKind⟩ := expect_eq_ok_iff.1 hname
    obtain ⟨o', ho', rfl⟩ := map_eq_ok_iff.1 h
    obtain ⟨phrases, hphrases, rfl⟩ := ih ho'
    exact ⟨.declaring kind t name :: phrases, .declaring hkind hnameKind hphrases, rfl⟩
  | case11 braces t rest hopen hclose hidentifier hfrom hdeclared ih =>
    obtain ⟨phrases, hphrases, rfl⟩ := ih h
    refine ⟨.single t :: phrases, .other ⟨hopen, hclose⟩ (fun hdepth => ?_) hphrases,
      (outlineOf_passed hidentifier).symm⟩
    obtain rfl := List.length_eq_zero_iff.1 hdepth
    exact ⟨by simpa using hfrom, Option.eq_none_iff_forall_ne_some.2 fun kind => hdeclared kind rfl⟩

theorem outlineFrom_complete {depth : Nat} {tokens : List Token} {phrases : List Phrase}
    (h : Phrased depth tokens phrases) {braces : List Token} (hbraces : braces.length = depth) :
    outlineFrom braces tokens = .ok (outlineOf phrases) := by
  induction h generalizing braces with
  | nil =>
    obtain rfl := List.length_eq_zero_iff.1 hbraces
    rw [outlineFrom]
    rfl
  | @openBrace depth t rest phrases kind others ih =>
    have hrest : outlineFrom (t :: braces) rest = .ok (outlineOf phrases) :=
      ih (by rw [List.length_cons, hbraces])
    rw [outlineOf_passed (by simp [kind]), outlineFrom_openBrace kind, hrest]
  | @closeBrace depth t rest phrases kind others ih =>
    obtain ⟨brace, outer, rfl⟩ := List.exists_cons_of_length_eq_add_one hbraces
    have hrest : outlineFrom outer rest = .ok (outlineOf phrases) := ih (by simpa using hbraces)
    rw [outlineOf_passed (by simp [kind]), outlineFrom_closeBrace kind, hrest]
  | @other depth t rest phrases unbraced unheaded others ih =>
    have hrest := ih hbraces
    by_cases hkind : t.kind = .identifier
    · rw [outlineOf_mention hkind, outlineFrom_identifier hkind, hrest]
      rfl
    · have hunheaded : braces = [] → t.kind ≠ .fromWord ∧ declKind? t.kind = none := by
        rintro rfl
        exact unheaded hbraces.symm
      rw [outlineOf_passed hkind, outlineFrom_passed unbraced hkind hunheaded, hrest]
  | @declaring kind word name rest phrases word_kind name_kind others ih =>
    obtain rfl := List.length_eq_zero_iff.1 hbraces
    have hread : expect .identifier .declarationName (name :: rest) = .ok (name, rest) :=
      expect_eq_ok_iff.2 ⟨rfl, name_kind⟩
    rw [outlineFrom_declaring word_kind, hread]
    show (outlineFrom [] rest).map _ = _
    rw [ih List.length_nil]
    rfl
  | @importing p rest phrases valid ends others ih =>
    obtain rfl := List.length_eq_zero_iff.1 hbraces
    rw [outlineFrom_fromWord valid.word, importStatement_complete valid ends]
    show (outlineFrom [] rest).map _ = _
    rw [ih List.length_nil]
    rfl

/-- The reader accepts exactly the rows of phrases. -/
theorem outlineFrom_eq_ok_iff {tokens : List Token} {o : Outline} :
    outlineFrom [] tokens = .ok o ↔
      ∃ phrases, Phrased 0 tokens phrases ∧ o = outlineOf phrases := by
  constructor
  · exact outlineFrom_sound
  · rintro ⟨phrases, hphrases, rfl⟩
    exact outlineFrom_complete hphrases rfl

/-- A text has an outline when its tokens are a row of phrases. -/
theorem parse_eq_ok_iff {text : String} {o : Outline} :
    Outline.parse text = .ok o ↔ ∃ tokens phrases, tokenize text = .ok tokens ∧
      Phrased 0 tokens phrases ∧ o = outlineOf phrases := by
  unfold Outline.parse
  cases tokenize text with
  | error e => simp
  | ok tokens => simp [outlineFrom_eq_ok_iff]

/-! ## The roles of tokens -/

/-- The tokens that are references, in text order. -/
def references (roles : List (Token × Role)) : List Token :=
  (roles.filter (·.2 = .reference)).map Prod.fst

/-- The tokens that are identifiers but no references: the segments of packages
and the names that imports give an alias to. -/
def hidden (roles : List (Token × Role)) : List Token :=
  (roles.filter fun r => r.2 = .segment ∨ r.2 = .aliasedName).map Prod.fst

@[simp] theorem references_append (front back : List (Token × Role)) :
    references (front ++ back) = references front ++ references back := by
  simp [references]

@[simp] theorem references_cons (r : Token × Role) (roles : List (Token × Role)) :
    references (r :: roles) =
      if r.2 = .reference then r.1 :: references roles else references roles := by
  by_cases h : r.2 = .reference <;> simp [references, h]

@[simp] theorem references_nil : references [] = [] := rfl

namespace Phrased

variable {depth : Nat} {tokens : List Token} {phrases : List Phrase}

/-- The tokens with a role are all the tokens. -/
theorem tokens_eq (h : Phrased depth tokens phrases) : (rolesOf phrases).map Prod.fst = tokens := by
  induction h with
  | nil => rfl
  | openBrace _ _ ih => simpa [rolesOf, Phrase.roles] using ih
  | closeBrace _ _ ih => simpa [rolesOf, Phrase.roles] using ih
  | other _ _ _ ih => simpa [rolesOf, Phrase.roles] using ih
  | declaring _ _ _ ih => simpa [rolesOf, Phrase.roles] using ih
  | importing _ _ _ ih => simpa [rolesOf, Phrase.roles] using ih

end Phrased

/-- The role of a token fits its kind: just the identifiers have a role to tell. -/
def Fits (r : Token × Role) : Prop := r.2 = .other ↔ r.1.kind ≠ .identifier

theorem ItemPhrase.Valid.fits {p : ItemPhrase} (h : p.Valid) : ∀ r ∈ p.roles, Fits r := by
  obtain ⟨hname, halias⟩ := h
  unfold ItemPhrase.roles
  cases hcase : p.alias? with
  | none => simp [Fits, hname]
  | some pair =>
    obtain ⟨hword, hother⟩ := halias pair hcase
    simp [Fits, hname, hword, hother]

theorem ImportPhrase.Valid.fits {p : ImportPhrase} (h : p.Valid) : ∀ r ∈ p.bodyRoles, Fits r := by
  intro r hr
  simp only [bodyRoles, segmentRoles, itemRoles, List.mem_append, List.mem_cons, List.mem_map,
    List.mem_flatMap, List.not_mem_nil, or_false] at hr
  rcases hr with (⟨t, ht, rfl⟩ | rfl | ⟨s, hs, rfl | rfl⟩) | rfl | hr | ⟨i, hi, rfl | hr⟩
  · simp [Fits, h.dots t ht]
  · simp [Fits, h.segment]
  · simp [Fits, (h.segments s hs).1]
  · simp [Fits, (h.segments s hs).2]
  · simp [Fits, h.importWord]
  · exact h.item.fits r hr
  · simp [Fits, (h.items i hi).1]
  · exact (h.items i hi).2.fits r hr

theorem Phrase.fits_single (t : Token) : ∀ r ∈ (Phrase.single t).roles, Fits r := by
  intro r hr
  obtain rfl := List.mem_singleton.1 hr
  by_cases hkind : t.kind = .identifier <;> simp [Fits, hkind]

theorem Phrased.fits {depth : Nat} {tokens : List Token} {phrases : List Phrase}
    (h : Phrased depth tokens phrases) : ∀ r ∈ rolesOf phrases, Fits r := by
  have happend : ∀ {phrase : Phrase} {phrases : List Phrase}, (∀ r ∈ phrase.roles, Fits r) →
      (∀ r ∈ rolesOf phrases, Fits r) → ∀ r ∈ rolesOf (phrase :: phrases), Fits r :=
    fun hfirst hothers => List.forall_mem_append.2 ⟨hfirst, hothers⟩
  induction h with
  | nil => exact nofun
  | openBrace _ _ ih => exact happend (Phrase.fits_single _) ih
  | closeBrace _ _ ih => exact happend (Phrase.fits_single _) ih
  | other _ _ _ ih => exact happend (Phrase.fits_single _) ih
  | @declaring kind word name _ _ word_kind name_kind _ ih =>
    refine happend ?_ ih
    have hword : word.kind ≠ .identifier := by
      intro hkind
      rw [hkind] at word_kind
      cases word_kind
    simp [Phrase.roles, Fits, hword, name_kind]
  | importing valid _ _ ih =>
    refine happend (List.forall_mem_cons.2 ⟨?_, valid.fits⟩) ih
    simp [Fits, valid.word]

/-- References and aliased names are identifiers. -/
theorem Phrased.kind_of_role {depth : Nat} {tokens : List Token} {phrases : List Phrase}
    (h : Phrased depth tokens phrases) {r : Token × Role} (hr : r ∈ rolesOf phrases)
    (hrole : r.2 = .reference ∨ r.2 = .aliasedName) : r.1.kind = .identifier := by
  by_contra hkind
  have hother := (h.fits r hr).2 hkind
  rcases hrole with hrole | hrole <;> rw [hrole] at hother <;> cases hother

/-- In tokens without repetition, the references are the identifiers that are not
hidden. -/
theorem Phrased.references_eq {depth : Nat} {tokens : List Token} {phrases : List Phrase}
    (h : Phrased depth tokens phrases) (hnodup : tokens.Nodup) :
    references (rolesOf phrases) =
      tokens.filter fun t => t.kind = .identifier ∧ t ∉ hidden (rolesOf phrases) := by
  have htokens := h.tokens_eq
  subst htokens
  rw [List.filter_map, references]
  congr 1
  refine List.filter_congr fun r hr => ?_
  have hfits := h.fits r hr
  -- a token has one role only, since it stands at one place only
  have hrole : ∀ r' ∈ rolesOf phrases, r'.1 = r.1 → r' = r :=
    fun r' hr' => List.inj_on_of_nodup_map hnodup hr' hr
  have hhidden : r.1 ∈ hidden (rolesOf phrases) ↔ r.2 = .segment ∨ r.2 = .aliasedName := by
    simp only [hidden, List.mem_map, List.mem_filter, decide_eq_true_eq]
    constructor
    · rintro ⟨r', ⟨hr', hcase⟩, heq⟩
      rwa [hrole r' hr' heq] at hcase
    · exact fun hcase => ⟨r, ⟨hr, hcase⟩, rfl⟩
  simp only [Function.comp_apply, hhidden, Fits] at hfits ⊢
  cases hcase : r.2 <;> simp_all

theorem ItemPhrase.references_roles (p : ItemPhrase) :
    (references p.roles).map Token.identifier = [p.item.binding] := by
  unfold roles item
  cases p.alias? <;> rfl

theorem ImportPhrase.references_segmentRoles (segments : List (Token × Token)) :
    references (segmentRoles segments) = [] := by
  induction segments with
  | nil => rfl
  | cons s segments ih => simpa [segmentRoles] using ih

theorem ImportPhrase.references_itemRoles (items : List (Token × ItemPhrase)) :
    (references (itemRoles items)).map Token.identifier = items.map (·.2.item.binding) := by
  induction items with
  | nil => rfl
  | cons i items ih =>
    rw [itemRoles_cons, references_cons, if_neg nofun, references_append, List.map_append,
      i.2.references_roles, ih]
    rfl

theorem ImportPhrase.references_bodyRoles (p : ImportPhrase) :
    (references p.bodyRoles).map Token.identifier = p.statement.items.map ImportItem.binding := by
  have hdots : references (p.dots.map (·, .other)) = [] := by simp [references]
  rw [bodyRoles, references_append, references_append, hdots, references_cons, if_neg nofun,
    references_segmentRoles, references_cons, if_neg nofun, references_append]
  simp only [List.nil_append, List.map_append, p.item.references_roles, references_itemRoles]
  simp [statement, ImportStatement.items]

/-- The identifiers of an outline are the references. -/
theorem identifiers_outlineOf (phrases : List Phrase) :
    (outlineOf phrases).identifiers = (references (rolesOf phrases)).map Token.identifier := by
  induction phrases with
  | nil => rfl
  | cons phrase phrases ih =>
    rw [rolesOf, List.flatMap_cons, ← rolesOf, references_append, List.map_append, ← ih,
      outlineOf_cons]
    cases phrase with
    | importing p =>
      rw [Phrase.roles, references_cons, if_neg nofun, p.references_bodyRoles]
      rfl
    | declaring kind word name => rfl
    | single t =>
      by_cases hkind : t.kind = .identifier <;>
        simp [Phrase.roles, Phrase.addTo, Outline.mention, hkind]

/-! ## The names of an outline -/

/-- Declared names are among the identifiers. -/
theorem name_mem_identifiers {phrases : List Phrase} {d : Declaration}
    (h : d ∈ (outlineOf phrases).declarations) : d.name ∈ (outlineOf phrases).identifiers := by
  induction phrases with
  | nil => cases h
  | cons phrase phrases ih =>
    rw [outlineOf_cons] at h ⊢
    cases phrase with
    | importing p => exact List.mem_append_right _ (ih h)
    | declaring kind word name =>
      rcases List.mem_cons.1 h with rfl | h
      · exact List.mem_cons_self
      · exact List.mem_cons_of_mem _ (ih h)
    | single t =>
      by_cases hkind : t.kind = .identifier
      · simp only [Phrase.addTo, if_pos hkind] at h ⊢
        exact List.mem_cons_of_mem _ (ih h)
      · simp only [Phrase.addTo, if_neg hkind] at h ⊢
        exact ih h

/-- The binding tokens of imports are among the identifiers. -/
theorem binding_mem_identifiers {phrases : List Phrase} {s : ImportStatement} {item : ImportItem}
    (h : s ∈ (outlineOf phrases).imports) (hitem : item ∈ s.items) :
    item.binding ∈ (outlineOf phrases).identifiers := by
  induction phrases with
  | nil => cases h
  | cons phrase phrases ih =>
    rw [outlineOf_cons] at h ⊢
    cases phrase with
    | importing p =>
      rcases List.mem_cons.1 h with rfl | h
      · exact List.mem_append_left _ (List.mem_map_of_mem hitem)
      · exact List.mem_append_right _ (ih h)
    | declaring kind word name => exact List.mem_cons_of_mem _ (ih h)
    | single t =>
      by_cases hkind : t.kind = .identifier
      · simp only [Phrase.addTo, if_pos hkind] at h ⊢
        exact List.mem_cons_of_mem _ (ih h)
      · simp only [Phrase.addTo, if_neg hkind] at h ⊢
        exact ih h

/-- The name of an item is a reference unless the item has an alias. -/
theorem ItemPhrase.name_mem_roles (p : ItemPhrase) :
    (p.name, if p.item.alias?.isSome then .aliasedName else .reference) ∈ p.roles := by
  obtain ⟨name, alias?⟩ := p
  cases alias? <;> simp [roles, item]

theorem ImportPhrase.mem_bodyRoles {p : ImportPhrase} {q : ItemPhrase} (h : q ∈ p.itemPhrases)
    {r : Token × Role} (hr : r ∈ q.roles) : r ∈ p.bodyRoles := by
  simp only [bodyRoles, itemRoles, List.mem_append, List.mem_cons, List.mem_flatMap]
  rcases List.mem_cons.1 h with rfl | h
  · exact .inr (.inr (.inl hr))
  · obtain ⟨i, hi, rfl⟩ := List.mem_map.1 h
    exact .inr (.inr (.inr ⟨i, hi, .inr hr⟩))

/-- Each imported name is spelt by a token, whose role says whether there is an
alias. -/
theorem exists_role_of_item {phrases : List Phrase} {s : ImportStatement} {item : ImportItem}
    (hs : s ∈ (outlineOf phrases).imports) (hitem : item ∈ s.items) :
    ∃ t : Token, t.identifier = item.name ∧
      (t, if item.alias?.isSome then Role.aliasedName else .reference) ∈ rolesOf phrases := by
  induction phrases with
  | nil => cases hs
  | cons phrase phrases ih =>
    have hlater : s ∈ (outlineOf phrases).imports → ∃ t : Token, t.identifier = item.name ∧
        (t, if item.alias?.isSome then Role.aliasedName else .reference) ∈
          rolesOf (phrase :: phrases) := by
      intro hs
      obtain ⟨t, ht, hrole⟩ := ih hs
      exact ⟨t, ht, List.mem_append_right _ hrole⟩
    rw [outlineOf_cons] at hs
    cases phrase with
    | importing p =>
      rcases List.mem_cons.1 hs with rfl | hs
      · rw [p.items_statement] at hitem
        obtain ⟨q, hq, rfl⟩ := List.mem_map.1 hitem
        have hrole := ImportPhrase.mem_bodyRoles hq q.name_mem_roles
        exact ⟨q.name, rfl, List.mem_append_left _ (List.mem_cons_of_mem _ hrole)⟩
      · exact hlater hs
    | declaring kind word name => exact hlater hs
    | single t =>
      refine hlater ?_
      simp only [Phrase.addTo] at hs
      split at hs <;> exact hs

theorem ImportPhrase.itemNames_sublist (p : ImportPhrase) :
    List.Sublist (p.statement.items.map (·.name)) (p.bodyRoles.map (·.1.identifier)) := by
  have hname : ∀ q : ItemPhrase,
      List.Sublist [q.name.identifier] (q.roles.map (·.1.identifier)) := by
    intro q
    exact List.singleton_sublist.2 (List.mem_map.2 ⟨_, q.name_mem_roles, rfl⟩)
  have hitems : ∀ items : List (Token × ItemPhrase), List.Sublist
      (items.map (·.2.name.identifier)) ((itemRoles items).map (·.1.identifier)) := by
    intro items
    induction items with
    | nil => exact .slnil
    | cons i items ih =>
      have hboth := (hname i.2).append ih
      rw [← List.map_append] at hboth
      rw [itemRoles_cons]
      exact .cons _ hboth
  rw [p.items_statement, List.map_map, bodyRoles, List.map_append, List.map_cons, List.map_append]
  refine List.Sublist.trans ?_ (List.sublist_append_right _ _)
  refine .cons _ ?_
  have hall := (hname p.item).append (hitems p.items)
  simpa [itemPhrases, ItemPhrase.item, Function.comp_def] using hall

/-- The imported names are spelt by different tokens, in order. -/
theorem itemNames_sublist (phrases : List Phrase) :
    List.Sublist (((outlineOf phrases).imports.flatMap ImportStatement.items).map (·.name))
      ((rolesOf phrases).map (·.1.identifier)) := by
  induction phrases with
  | nil => exact .slnil
  | cons phrase phrases ih =>
    rw [outlineOf_cons, rolesOf, List.flatMap_cons, ← rolesOf, List.map_append]
    have hlater := ih.trans (List.sublist_append_right (phrase.roles.map (·.1.identifier)) _)
    cases phrase with
    | importing p =>
      simp only [Phrase.addTo, Outline.importing, List.flatMap_cons, List.map_append]
      exact (p.itemNames_sublist.cons _).append ih
    | declaring kind word name => exact hlater
    | single t =>
      simp only [Phrase.addTo]
      split <;> exact hlater

/-- Each imported name is spelt by an identifier token. -/
theorem Phrased.exists_token_of_item {depth : Nat} {tokens : List Token} {phrases : List Phrase}
    (h : Phrased depth tokens phrases) {s : ImportStatement} {item : ImportItem}
    (hs : s ∈ (outlineOf phrases).imports) (hitem : item ∈ s.items) :
    ∃ t ∈ tokens, t.kind = .identifier ∧ item.name = t.identifier := by
  obtain ⟨t, ht, hrole⟩ := exists_role_of_item hs hitem
  refine ⟨t, ?_, h.kind_of_role hrole ?_, ht.symm⟩
  · rw [← h.tokens_eq]
    exact List.mem_map_of_mem hrole
  · dsimp only
    split
    · exact .inr rfl
    · exact .inl rfl

end SymbolAtlas
