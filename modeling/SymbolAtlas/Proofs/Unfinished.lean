import SymbolAtlas.Proofs.ModuleGrammar

/-!
# Statements that are not finished

An import or a declaration has begun, and what stands there so far cannot be the whole of
it.  What it requires next depends on how far it goes.  A token that can follow goes on with
it or completes it; where none follows, reading stops and reports what was required.

## Main Definitions

* `Unfinished`: the beginning of an import or a declaration, and what it requires.
* `Expectation.refusal`: the error where something is required and does not stand.
* `packageLeft`, `itemsLeft`: what the readers of the parts of an import leave.

## Main Statements

* `PackageStart.Valid.verdict_append`, `verdict_package`, `verdict_items`: reading goes over
  the beginning of an import.
* `Unfinished.verdict_append`: reading stops when no token follows that can.
* `Unfinished.extend`: a token that can follow goes on with the statement.
* `exists_path`, `exists_items`: the parts of an import that some tokens begin with.
-/

namespace SymbolAtlas

/-- The error at some tokens that do not begin with what is required. -/
def Expectation.refusal (what : Expectation) : List Token → SyntaxError
  | [] => .unexpectedEnd what
  | t :: _ => .unexpectedToken t.position t.lexeme what

/-- Some tokens do not begin with one of the given kinds. -/
def Lacks (kinds : List Token.Kind) (tokens : List Token) : Prop :=
  ∀ t ∈ tokens.head?, t.kind ∉ kinds

/-! ## Beginnings of statements -/

/-- The beginning of an import, up to a place where a name of its package is due. -/
structure PackageStart where
  word : Token
  dots : List Token
  /-- Names, each with the dot behind it. -/
  path : List (Token × Token)

/-- Names with the dots behind them. -/
def dotted (path : List (Token × Token)) : List Token := path.flatMap fun s => [s.1, s.2]

/-- Items with the commas behind them. -/
def listed (items : List (ItemPhrase × Token)) : List Token :=
  items.flatMap fun i => i.1.roles.map Prod.fst ++ [i.2]

namespace PackageStart

/-- The tokens of the beginning of an import. -/
def tokens (p : PackageStart) : List Token := p.word :: (p.dots ++ dotted p.path)

/-- The tokens have the kinds that they need. -/
structure Valid (p : PackageStart) : Prop where
  word : p.word.kind = .fromWord
  dots : ∀ t ∈ p.dots, t.kind = .dot
  path : ∀ s ∈ p.path, s.1.kind = .identifier ∧ s.2.kind = .dot

end PackageStart

/-- An import or a declaration that cannot end where it does, what it requires there, and the
kinds of token that can follow. -/
inductive Unfinished : List Token → Expectation → List Token.Kind → Prop where
  | dots {p : PackageStart} (start : p.Valid) (nameless : p.path = []) :
      Unfinished p.tokens .packageName [.dot, .identifier]
  | path {p : PackageStart} (start : p.Valid) (named : p.path ≠ []) :
      Unfinished p.tokens .packageName [.identifier]
  | package {p : PackageStart} {segment : Token} (start : p.Valid)
      (segment_kind : segment.kind = .identifier) :
      Unfinished (p.tokens ++ [segment]) .importWord [.dot, .importWord]
  | items {p : PackageStart} {segment word : Token} {items : List (ItemPhrase × Token)}
      (start : p.Valid) (segment_kind : segment.kind = .identifier)
      (word_kind : word.kind = .importWord)
      (items_valid : ∀ i ∈ items, i.1.Valid ∧ i.2.kind = .comma) :
      Unfinished (p.tokens ++ segment :: word :: listed items) .symbolName [.identifier]
  | aliasing {p : PackageStart} {segment word name aliasWord : Token}
      {items : List (ItemPhrase × Token)} (start : p.Valid)
      (segment_kind : segment.kind = .identifier) (word_kind : word.kind = .importWord)
      (items_valid : ∀ i ∈ items, i.1.Valid ∧ i.2.kind = .comma)
      (name_kind : name.kind = .identifier) (alias_kind : aliasWord.kind = .asWord) :
      Unfinished (p.tokens ++ segment :: word :: (listed items ++ [name, aliasWord])) .aliasName
        [.identifier]
  | declaration {word : Token} {kind : DeclKind} (word_kind : declKind? word.kind = some kind) :
      Unfinished [word] .declarationName [.identifier]

/-! ## What the readers leave -/

theorem expect_of_lacks {kind : Token.Kind} {tokens : List Token} (h : Lacks [kind] tokens)
    (what : Expectation) : expect kind what tokens = .error (what.refusal tokens) := by
  cases tokens with
  | nil => rfl
  | cons t rest =>
    have hkind : t.kind ≠ kind := fun hkind => h t rfl (List.mem_singleton.2 hkind)
    exact if_neg hkind

/-- What the package of an import leaves. -/
def packageLeft (tokens : List Token) : Except SyntaxError (List Token) :=
  (packageSegments tokens).map Prod.snd

/-- What the items of an import leave. -/
def itemsLeft (tokens : List Token) : Except SyntaxError (List Token) :=
  (importItems tokens).map (·.2.2)

theorem packageLeft_of_lacks {tokens : List Token} (h : Lacks [.identifier] tokens) :
    packageLeft tokens = .error (Expectation.packageName.refusal tokens) := by
  rw [packageLeft, packageSegments_eq, expect_of_lacks h .packageName]
  rfl

theorem packageLeft_cons {segment : Token} {rest : List Token}
    (h : segment.kind = .identifier) :
    packageLeft (segment :: rest) = match after? .dot rest with
      | none => .ok rest
      | some more => packageLeft more := by
  have hname : expect .identifier .packageName (segment :: rest) = .ok (segment, rest) :=
    expect_eq_ok_iff.2 ⟨rfl, h⟩
  rw [packageLeft, packageSegments_eq, hname]
  dsimp only [Except.bind]
  cases after? .dot rest with
  | none => rfl
  | some more =>
    dsimp only [packageLeft]
    cases packageSegments more <;> rfl

/-- What is left behind an item: if a comma follows, more items are read. -/
def moreItemsLeft (tokens : List Token) : Except SyntaxError (List Token) :=
  match after? .comma tokens with
  | none => .ok tokens
  | some more => itemsLeft more

theorem itemsLeft_eq (tokens : List Token) :
    itemsLeft tokens = (importItem tokens).bind fun s => moreItemsLeft s.2 := by
  rw [itemsLeft, importItems_eq]
  cases importItem tokens with
  | error e => rfl
  | ok s =>
    dsimp only [Except.bind, moreItemsLeft]
    cases after? .comma s.2 with
    | none => rfl
    | some more =>
      dsimp only [itemsLeft]
      cases importItems more <;> rfl

theorem importStatement_left (tokens : List Token) :
    (importStatement tokens).map Prod.snd =
      (packageLeft (tokens.dropWhile (·.kind = .dot))).bind fun rest =>
        (expect .importWord .importWord rest).bind fun s => itemsLeft s.2 := by
  unfold importStatement packageLeft
  dsimp only
  cases packageSegments (tokens.dropWhile (·.kind = .dot)) with
  | error e => rfl
  | ok s =>
    dsimp only [Except.map, Except.bind]
    cases expect .importWord .importWord s.2 with
    | error e => rfl
    | ok s' =>
      dsimp only [itemsLeft]
      cases importItems s'.2 <;> rfl

/-! ## Reading over beginnings -/

theorem Lacks.mono {kinds kinds' : List Token.Kind} {tokens : List Token} (h : Lacks kinds tokens)
    (hsubset : kinds' ⊆ kinds) : Lacks kinds' tokens :=
  fun t ht hmem => h t ht (hsubset hmem)

theorem after?_of_lacks {kind : Token.Kind} {tokens : List Token} (h : Lacks [kind] tokens) :
    after? kind tokens = none :=
  after?_eq_none_iff.2 fun t ht hkind => h t ht (List.mem_singleton.2 hkind)

theorem packageLeft_append {path : List (Token × Token)}
    (h : ∀ s ∈ path, s.1.kind = .identifier ∧ s.2.kind = .dot) (rest : List Token) :
    packageLeft (dotted path ++ rest) = packageLeft rest := by
  induction path with
  | nil => rfl
  | cons s path ih =>
    obtain ⟨⟨hname, hdot⟩, hpath⟩ := List.forall_mem_cons.1 h
    show packageLeft (s.1 :: s.2 :: (dotted path ++ rest)) = _
    rw [packageLeft_cons hname, after?_eq_some_iff.2 ⟨s.2, rfl, hdot⟩]
    exact ih hpath

theorem packageLeft_segment {segment : Token} {rest : List Token}
    (h : segment.kind = .identifier) (hrest : Lacks [.dot] rest) :
    packageLeft (segment :: rest) = .ok rest := by
  rw [packageLeft_cons h, after?_of_lacks hrest]

theorem itemsLeft_item {item : ItemPhrase} {rest : List Token} (h : item.Valid)
    (hends : item.Ends rest) :
    itemsLeft (item.roles.map Prod.fst ++ rest) = moreItemsLeft rest := by
  rw [itemsLeft_eq, importItem_eq_ok_iff.2 ⟨item, h, hends, rfl, rfl⟩]
  rfl

theorem itemsLeft_append {items : List (ItemPhrase × Token)}
    (h : ∀ i ∈ items, i.1.Valid ∧ i.2.kind = .comma) (rest : List Token) :
    itemsLeft (listed items ++ rest) = itemsLeft rest := by
  induction items with
  | nil => rfl
  | cons i items ih =>
    obtain ⟨⟨hvalid, hcomma⟩, hitems⟩ := List.forall_mem_cons.1 h
    have hsplit : listed (i :: items) ++ rest =
        i.1.roles.map Prod.fst ++ i.2 :: (listed items ++ rest) := by
      simp [listed]
    have hends : i.1.Ends (i.2 :: (listed items ++ rest)) := by
      rintro - t ht
      obtain rfl := Option.some.inj ht
      rw [hcomma]
      decide
    rw [hsplit, itemsLeft_item hvalid hends, moreItemsLeft,
      after?_eq_some_iff.2 ⟨i.2, rfl, hcomma⟩]
    exact ih hitems

theorem itemsLeft_of_lacks {tokens : List Token} (h : Lacks [.identifier] tokens) :
    itemsLeft tokens = .error (Expectation.symbolName.refusal tokens) := by
  rw [itemsLeft_eq, importItem, expect_of_lacks h]
  rfl

theorem itemsLeft_alias {name word : Token} {rest : List Token} (hname : name.kind = .identifier)
    (hword : word.kind = .asWord) (h : Lacks [.identifier] rest) :
    itemsLeft (name :: word :: rest) = .error (Expectation.aliasName.refusal rest) := by
  rw [itemsLeft_eq, importItem, expect_eq_ok_iff.2 ⟨rfl, hname⟩]
  dsimp only
  rw [after?_eq_some_iff.2 ⟨word, rfl, hword⟩]
  dsimp only
  rw [expect_of_lacks h]
  rfl

/-- What reading gives where the items of an import are due. -/
def itemsVerdict (tokens : List Token) : Except SyntaxError Unit :=
  (itemsLeft tokens).bind (verdict [])

/-- What reading gives behind the package of an import. -/
def importVerdict (tokens : List Token) : Except SyntaxError Unit :=
  (expect .importWord .importWord tokens).bind fun s => itemsVerdict s.2

/-- What reading gives where a name of a package is due. -/
def packageVerdict (tokens : List Token) : Except SyntaxError Unit :=
  (packageLeft tokens).bind importVerdict

theorem dropWhile_of_lacks {kind : Token.Kind} {tokens : List Token} (h : Lacks [kind] tokens) :
    tokens.dropWhile (·.kind = kind) = tokens := by
  cases tokens with
  | nil => rfl
  | cons t rest =>
    refine List.dropWhile_cons_of_neg fun hkind => ?_
    exact h t rfl (List.mem_singleton.2 (of_decide_eq_true hkind))

theorem PackageStart.Valid.verdict_append {p : PackageStart} (h : p.Valid) {rest : List Token}
    (hrest : p.path = [] → Lacks [.dot] rest) :
    verdict [] (p.tokens ++ rest) = packageVerdict rest := by
  have hlacks : Lacks [.dot] (dotted p.path ++ rest) := by
    cases hpath : p.path with
    | nil => exact hrest hpath
    | cons s path =>
      rintro t ht hmem
      obtain rfl := Option.some.inj ht
      have hname : s.1.kind = .identifier := (h.path s (hpath ▸ List.mem_cons_self)).1
      rw [List.mem_singleton.1 hmem] at hname
      cases hname
  have hdrop : (p.dots ++ dotted p.path ++ rest).dropWhile (·.kind = .dot) =
      dotted p.path ++ rest := by
    rw [List.append_assoc, List.dropWhile_append_of_pos (by simpa using h.dots)]
    exact dropWhile_of_lacks hlacks
  have hleft : ∀ x : Except SyntaxError (ImportStatement × List Token),
      (x.bind fun s => verdict [] s.2) = (x.map Prod.snd).bind (verdict []) := by
    rintro (e | s) <;> rfl
  show verdict [] (p.word :: (p.dots ++ dotted p.path ++ rest)) = _
  rw [verdict_fromWord h.word, hleft, importStatement_left, hdrop, packageLeft_append h.path]
  unfold packageVerdict importVerdict itemsVerdict
  cases packageLeft rest with
  | error e => rfl
  | ok left =>
    dsimp only [Except.bind]
    cases expect .importWord .importWord left <;> rfl

theorem lacks_nil (kinds : List Token.Kind) : Lacks kinds [] := nofun

theorem lacks_cons {kinds : List Token.Kind} {t : Token} {rest : List Token} :
    Lacks kinds (t :: rest) ↔ t.kind ∉ kinds := by
  simp [Lacks]

section Beginnings

variable {p : PackageStart} {segment word : Token} {items : List (ItemPhrase × Token)}
  {rest : List Token}

theorem verdict_package (hstart : p.Valid) (hsegment : segment.kind = .identifier)
    (hrest : Lacks [.dot] rest) :
    verdict [] (p.tokens ++ segment :: rest) = importVerdict rest := by
  have hlacks : Lacks [.dot] (segment :: rest) := lacks_cons.2 (by rw [hsegment]; decide)
  rw [hstart.verdict_append fun _ => hlacks, packageVerdict, packageLeft_segment hsegment hrest]
  rfl

theorem verdict_items (hstart : p.Valid) (hsegment : segment.kind = .identifier)
    (hword : word.kind = .importWord) (hitems : ∀ i ∈ items, i.1.Valid ∧ i.2.kind = .comma) :
    verdict [] (p.tokens ++ segment :: word :: (listed items ++ rest)) = itemsVerdict rest := by
  have hlacks : Lacks [.dot] (word :: (listed items ++ rest)) :=
    lacks_cons.2 (by rw [hword]; decide)
  rw [verdict_package hstart hsegment hlacks, importVerdict, expect_eq_ok_iff.2 ⟨rfl, hword⟩]
  show itemsVerdict (listed items ++ rest) = _
  rw [itemsVerdict, itemsLeft_append hitems, itemsVerdict]

end Beginnings

/-- Reading stops behind the beginning of a statement when nothing follows that continues it. -/
theorem Unfinished.verdict_append {front rest : List Token} {what : Expectation}
    {kinds : List Token.Kind} (h : Unfinished front what kinds) (hrest : Lacks kinds rest) :
    verdict [] (front ++ rest) = .error (what.refusal rest) := by
  cases h with
  | dots start nameless =>
    rw [start.verdict_append fun _ => hrest.mono (by simp), packageVerdict,
      packageLeft_of_lacks (hrest.mono (by simp))]
    rfl
  | path start named =>
    rw [start.verdict_append (absurd · named), packageVerdict, packageLeft_of_lacks hrest]
    rfl
  | @package p segment start segment_kind =>
    have htokens : p.tokens ++ [segment] ++ rest = p.tokens ++ segment :: rest := by
      simp
    rw [htokens, verdict_package start segment_kind (hrest.mono (by simp)), importVerdict,
      expect_of_lacks (hrest.mono (by simp))]
    rfl
  | @items p segment word items start segment_kind word_kind items_valid =>
    have htokens : p.tokens ++ segment :: word :: listed items ++ rest =
        p.tokens ++ segment :: word :: (listed items ++ rest) := by
      simp
    rw [htokens, verdict_items start segment_kind word_kind items_valid, itemsVerdict,
      itemsLeft_of_lacks hrest]
    rfl
  | @aliasing p segment word name aliasWord items start segment_kind word_kind items_valid
      name_kind alias_kind =>
    have htokens : p.tokens ++ segment :: word :: (listed items ++ [name, aliasWord]) ++ rest =
        p.tokens ++ segment :: word :: (listed items ++ name :: aliasWord :: rest) := by
      simp
    rw [htokens, verdict_items start segment_kind word_kind items_valid, itemsVerdict,
      itemsLeft_alias name_kind alias_kind hrest]
    rfl
  | declaration word_kind =>
    rw [List.singleton_append, verdict_declaring word_kind, expect_of_lacks hrest]
    rfl

theorem itemsVerdict_item {item : ItemPhrase} (h : item.Valid) :
    itemsVerdict (item.roles.map Prod.fst) = .ok () := by
  have hends : item.Ends [] := nofun
  rw [itemsVerdict, ← List.append_nil (item.roles.map Prod.fst), itemsLeft_item h hends]
  exact verdict_nil

theorem itemsVerdict_name {name : Token} (h : name.kind = .identifier) :
    itemsVerdict [name] = .ok () := by
  have hvalid : ItemPhrase.Valid ⟨name, none⟩ := ⟨h, by simp⟩
  exact itemsVerdict_item hvalid

theorem itemsVerdict_alias {name word other : Token} (hname : name.kind = .identifier)
    (hword : word.kind = .asWord) (hother : other.kind = .identifier) :
    itemsVerdict [name, word, other] = .ok () := by
  have hvalid : ItemPhrase.Valid ⟨name, some (word, other)⟩ :=
    ⟨hname, by simp [hword, hother]⟩
  exact itemsVerdict_item hvalid

/-- The last name that a statement requires completes it. -/
theorem Unfinished.complete {front : List Token} {what : Expectation}
    (h : Unfinished front what [.identifier]) (hwhat : what ≠ .packageName) {t : Token}
    (ht : t.kind = .identifier) : verdict [] (front ++ [t]) = .ok () := by
  cases h with
  | path start named => exact absurd rfl hwhat
  | @items p segment word items start segment_kind word_kind items_valid =>
    have htokens : p.tokens ++ segment :: word :: listed items ++ [t] =
        p.tokens ++ segment :: word :: (listed items ++ [t]) := by
      simp
    rw [htokens, verdict_items start segment_kind word_kind items_valid]
    exact itemsVerdict_name ht
  | @aliasing p segment word name aliasWord items start segment_kind word_kind items_valid
      name_kind alias_kind =>
    have htokens : p.tokens ++ segment :: word :: (listed items ++ [name, aliasWord]) ++ [t] =
        p.tokens ++ segment :: word :: (listed items ++ [name, aliasWord, t]) := by
      simp
    rw [htokens, verdict_items start segment_kind word_kind items_valid]
    exact itemsVerdict_alias name_kind alias_kind ht
  | declaration word_kind =>
    rw [List.singleton_append, verdict_declaring word_kind, expect_eq_ok_iff.2 ⟨rfl, ht⟩]
    exact verdict_nil

/-- A token that can follow goes on with the statement or completes it. -/
theorem Unfinished.extend {front : List Token} {what : Expectation} {kinds : List Token.Kind}
    (h : Unfinished front what kinds) {t : Token} (ht : t.kind ∈ kinds) :
    (∃ what' kinds', Unfinished (front ++ [t]) what' kinds') ∨
      verdict [] (front ++ [t]) = .ok () := by
  cases h with
  | @dots p start nameless =>
    rcases List.mem_pair.1 ht with hdot | hname
    · have htokens : p.tokens ++ [t] = PackageStart.tokens ⟨p.word, p.dots ++ [t], []⟩ := by
        simp [PackageStart.tokens, nameless, dotted]
      have hdots : ∀ d ∈ p.dots ++ [t], d.kind = .dot :=
        List.forall_mem_append.2 ⟨start.dots, List.forall_mem_singleton.2 hdot⟩
      rw [htokens]
      exact .inl ⟨_, _, .dots ⟨start.word, hdots, by simp⟩ rfl⟩
    · exact .inl ⟨_, _, .package start hname⟩
  | path start named => exact .inl ⟨_, _, .package start (List.mem_singleton.1 ht)⟩
  | @package p segment start segment_kind =>
    rcases List.mem_pair.1 ht with hdot | hword
    · have htokens : p.tokens ++ [segment] ++ [t] =
          PackageStart.tokens ⟨p.word, p.dots, p.path ++ [(segment, t)]⟩ := by
        simp [PackageStart.tokens, dotted]
      have hpath : ∀ s ∈ p.path ++ [(segment, t)], s.1.kind = .identifier ∧ s.2.kind = .dot :=
        List.forall_mem_append.2 ⟨start.path, List.forall_mem_singleton.2 ⟨segment_kind, hdot⟩⟩
      rw [htokens]
      exact .inl ⟨_, _, .path ⟨start.word, start.dots, hpath⟩ (by simp)⟩
    · have htokens : p.tokens ++ [segment] ++ [t] = p.tokens ++ segment :: t :: listed [] := by
        simp [listed]
      rw [htokens]
      exact .inl ⟨_, _, .items start segment_kind hword (by simp)⟩
  | items start segment_kind word_kind items_valid =>
    exact .inr (complete (.items start segment_kind word_kind items_valid) nofun
      (List.mem_singleton.1 ht))
  | aliasing start segment_kind word_kind items_valid name_kind alias_kind =>
    exact .inr (complete
      (.aliasing start segment_kind word_kind items_valid name_kind alias_kind) nofun
      (List.mem_singleton.1 ht))
  | declaration word_kind =>
    exact .inr (complete (.declaration word_kind) nofun (List.mem_singleton.1 ht))

/-- Every statement that has begun can be completed. -/
theorem Unfinished.exists_more {front : List Token} {what : Expectation} {kinds : List Token.Kind}
    (h : Unfinished front what kinds) : ∃ more, verdict [] (front ++ more) = .ok () := by
  -- any tokens of the right kinds will do
  let token (kind : Token.Kind) : Token := ⟨kind, "", .start⟩
  have hpackage : ∀ {p : PackageStart} {segment : Token}, p.Valid → segment.kind = .identifier →
      verdict [] (p.tokens ++ [segment, token .importWord, token .identifier]) = .ok () := by
    intro p segment hp hsegment
    have hread : verdict [] (p.tokens ++
        segment :: token .importWord :: (listed [] ++ [token .identifier])) =
        itemsVerdict [token .identifier] := verdict_items hp hsegment rfl (by simp)
    exact hread.trans (itemsVerdict_name rfl)
  cases h with
  | dots start _ =>
    exact ⟨[token .identifier, token .importWord, token .identifier], hpackage start rfl⟩
  | path start _ =>
    exact ⟨[token .identifier, token .importWord, token .identifier], hpackage start rfl⟩
  | @package p segment start segment_kind =>
    refine ⟨[token .importWord, token .identifier], ?_⟩
    rw [List.append_assoc]
    exact hpackage start segment_kind
  | items start segment_kind word_kind items_valid =>
    exact ⟨[token .identifier],
      complete (.items start segment_kind word_kind items_valid) nofun rfl⟩
  | aliasing start segment_kind word_kind items_valid name_kind alias_kind =>
    exact ⟨[token .identifier], complete
      (.aliasing start segment_kind word_kind items_valid name_kind alias_kind) nofun rfl⟩
  | declaration word_kind =>
    exact ⟨[token .identifier], complete (.declaration word_kind) nofun rfl⟩

/-! ## The parts of an import that tokens begin with -/

theorem lacks_of_expect {kind : Token.Kind} {what : Expectation} {tokens : List Token}
    {e : SyntaxError} (h : expect kind what tokens = .error e) : Lacks [kind] tokens := by
  cases tokens with
  | nil => exact nofun
  | cons t rest =>
    refine lacks_cons.2 fun hmem => ?_
    rw [expect_eq_ok_iff.2 ⟨rfl, List.mem_singleton.1 hmem⟩] at h
    cases h

theorem lacks_of_after? {kind : Token.Kind} {tokens : List Token} (h : after? kind tokens = none) :
    Lacks [kind] tokens :=
  fun t ht hmem => after?_eq_none_iff.1 h t ht (List.mem_singleton.1 hmem)

/-- Behind the longest row of names with dots there is no name, or one without a dot. -/
theorem exists_path : (tokens : List Token) → ∃ path rest, tokens = dotted path ++ rest ∧
    (∀ s ∈ path, s.1.kind = .identifier ∧ s.2.kind = .dot) ∧
    (Lacks [.identifier] rest ∨ ∃ segment more, rest = segment :: more ∧
      segment.kind = .identifier ∧ Lacks [.dot] more)
  | [] => ⟨[], [], rfl, by simp, .inl nofun⟩
  | [t] => by
    by_cases ht : t.kind = .identifier
    · exact ⟨[], [t], rfl, by simp, .inr ⟨t, [], rfl, ht, nofun⟩⟩
    · exact ⟨[], [t], rfl, by simp, .inl (lacks_cons.2 (by simpa using ht))⟩
  | t :: u :: rest => by
    by_cases ht : t.kind = .identifier
    · by_cases hu : u.kind = .dot
      · obtain ⟨path, left, rfl, hpath, hleft⟩ := exists_path rest
        exact ⟨(t, u) :: path, left, rfl, List.forall_mem_cons.2 ⟨⟨ht, hu⟩, hpath⟩, hleft⟩
      · have hlacks : Lacks [.dot] (u :: rest) := lacks_cons.2 (by simpa using hu)
        exact ⟨[], t :: u :: rest, rfl, by simp, .inr ⟨t, u :: rest, rfl, ht, hlacks⟩⟩
    · exact ⟨[], t :: u :: rest, rfl, by simp, .inl (lacks_cons.2 (by simpa using ht))⟩

theorem lacks_or_alias_of_importItem {tokens : List Token} {e : SyntaxError}
    (h : importItem tokens = .error e) :
    Lacks [.identifier] tokens ∨ ∃ name word rest, tokens = name :: word :: rest ∧
      name.kind = .identifier ∧ word.kind = .asWord ∧ Lacks [.identifier] rest := by
  unfold importItem at h
  split at h
  · next hname => exact .inl (lacks_of_expect hname)
  · next name rest hname =>
    obtain ⟨rfl, hkind⟩ := expect_eq_ok_iff.1 hname
    split at h
    · cases h
    · next more halias =>
      obtain ⟨word, rfl, hword⟩ := after?_eq_some_iff.1 halias
      split at h
      · next hother => exact .inr ⟨name, word, more, rfl, hkind, hword, lacks_of_expect hother⟩
      · cases h

/-- Behind the longest row of items with commas there is no item, one that lacks its alias, or
one without a comma. -/
theorem exists_items (tokens : List Token) : ∃ items rest, tokens = listed items ++ rest ∧
    (∀ i ∈ items, i.1.Valid ∧ i.2.kind = .comma) ∧
    (Lacks [.identifier] rest ∨
      (∃ name word more, rest = name :: word :: more ∧ name.kind = .identifier ∧
        word.kind = .asWord ∧ Lacks [.identifier] more) ∨
      ∃ (item : ItemPhrase) (more : List Token), rest = item.roles.map Prod.fst ++ more ∧
        item.Valid ∧ item.Ends more ∧ Lacks [.comma] more) := by
  cases hitem : importItem tokens with
  | error e =>
    refine ⟨[], tokens, rfl, by simp, ?_⟩
    rcases lacks_or_alias_of_importItem hitem with hlacks | halias
    · exact .inl hlacks
    · exact .inr (.inl halias)
  | ok s =>
    obtain ⟨p, hvalid, hends, htokens, -⟩ := importItem_eq_ok_iff.1 hitem
    cases hcomma : after? .comma s.2 with
    | none =>
      refine ⟨[], tokens, rfl, by simp, .inr (.inr ⟨p, s.2, htokens, hvalid, hends, ?_⟩)⟩
      exact lacks_of_after? hcomma
    | some more =>
      have hshorter : more.length < tokens.length :=
        Nat.lt_trans (length_lt_of_after? hcomma) (length_lt_of_importItem hitem)
      obtain ⟨comma, hrest, hkind⟩ := after?_eq_some_iff.1 hcomma
      obtain ⟨items, left, hmore, hitems, hleft⟩ := exists_items more
      refine ⟨(p, comma) :: items, left, ?_, ?_, hleft⟩
      · rw [htokens, hrest, hmore]
        simp [listed]
      · exact List.forall_mem_cons.2 ⟨⟨hvalid, hkind⟩, hitems⟩
termination_by tokens.length

theorem Lacks.cons {kind : Token.Kind} {kinds : List Token.Kind} {tokens : List Token}
    (h : Lacks [kind] tokens) (hkinds : Lacks kinds tokens) : Lacks (kind :: kinds) tokens := by
  intro t ht hmem
  rcases List.mem_cons.1 hmem with hkind | hmem
  · exact h t ht (List.mem_singleton.2 hkind)
  · exact hkinds t ht hmem

theorem lacks_dropWhile (kind : Token.Kind) (tokens : List Token) :
    Lacks [kind] (tokens.dropWhile (·.kind = kind)) := by
  intro t ht hmem
  have hnot := List.head?_dropWhile_not (fun u : Token => decide (u.kind = kind)) tokens
  rw [Option.mem_def.1 ht] at hnot
  simp [List.mem_singleton.1 hmem] at hnot

theorem exists_cons_of_not_lacks {kind : Token.Kind} {tokens : List Token}
    (h : ¬ Lacks [kind] tokens) : ∃ t rest, tokens = t :: rest ∧ t.kind = kind := by
  cases tokens with
  | nil => exact absurd nofun h
  | cons t rest =>
    rw [lacks_cons, not_not] at h
    exact ⟨t, rest, rfl, List.mem_singleton.1 h⟩

/-- Where an import cannot be read, it has begun, and no token follows that can. -/
theorem exists_unfinished_of_importStatement {word : Token} {tokens : List Token}
    {e : SyntaxError} (hword : word.kind = .fromWord) (h : importStatement tokens = .error e) :
    ∃ front what kinds rest, word :: tokens = front ++ rest ∧ Unfinished front what kinds ∧
      Lacks kinds rest := by
  obtain ⟨path, rest, hpath, hvalid, hrest⟩ := exists_path (tokens.dropWhile (·.kind = .dot))
  have hlacks : Lacks [.dot] (dotted path ++ rest) := hpath ▸ lacks_dropWhile .dot tokens
  let p : PackageStart := ⟨word, tokens.takeWhile (·.kind = .dot), path⟩
  have hstart : p.Valid :=
    ⟨hword, fun t ht => by simpa using List.all_eq_true.1 List.all_takeWhile t ht, hvalid⟩
  have htokens : word :: tokens = p.tokens ++ rest := by
    show _ = word :: (tokens.takeWhile (·.kind = .dot) ++ dotted path ++ rest)
    rw [List.append_assoc, ← hpath, List.takeWhile_append_dropWhile]
  rcases hrest with hname | ⟨segment, more, rfl, hsegment, hdot⟩
  · by_cases hempty : path = []
    · subst hempty
      exact ⟨_, _, _, rest, htokens, .dots hstart rfl, hlacks.cons hname⟩
    · exact ⟨_, _, _, rest, htokens, .path hstart hempty, hname⟩
  · by_cases himport : Lacks [.importWord] more
    · refine ⟨_, _, _, more, ?_, .package hstart hsegment, hdot.cons himport⟩
      rw [htokens, List.append_assoc, List.singleton_append]
    · obtain ⟨importWord, behind, rfl, himportWord⟩ := exists_cons_of_not_lacks himport
      obtain ⟨items, left, rfl, hitems, hleft⟩ := exists_items behind
      rcases hleft with hname | ⟨name, aliasWord, left, rfl, hname, halias, hother⟩ |
        ⟨item, left, rfl, hitem, hends, hcomma⟩
      · refine ⟨_, _, _, left, ?_, .items hstart hsegment himportWord hitems, hname⟩
        rw [htokens, List.append_assoc]
        rfl
      · refine ⟨_, _, _, left, ?_,
          .aliasing hstart hsegment himportWord hitems hname halias, hother⟩
        rw [htokens]
        simp
      · -- the import is complete, so reading it does not fail
        have hread := importStatement_left tokens
        rw [h, hpath, packageLeft_append hvalid, packageLeft_segment hsegment hdot] at hread
        dsimp only [Except.bind, Except.map] at hread
        rw [expect_eq_ok_iff.2 ⟨rfl, himportWord⟩] at hread
        dsimp only at hread
        rw [itemsLeft_append hitems, itemsLeft_item hitem hends, moreItemsLeft,
          after?_of_lacks hcomma] at hread
        cases hread

end SymbolAtlas
