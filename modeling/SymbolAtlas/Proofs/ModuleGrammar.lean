import SymbolAtlas.Proofs.Grammar

/-!
# Modules as rows of items

Outside of all braces a module is a row of items: imports, declarations, blocks between
braces, and single tokens that are neither a brace nor the first word of an import or a
declaration.  What stands in a block is free, as long as its braces are balanced.  Reading
goes over items and over balanced tokens without being changed by them, so that only what
follows them decides whether a module is accepted.

## Main Definitions

* `Balanced`: tokens with balanced braces.
* `ModuleItem`, `Items`, `IsModule`: items in front of some tokens, and whole modules.
* `Closes`, `NeverCloses`: whether an open brace is closed by the tokens behind it.
* `verdict`: whether reading accepts some tokens, and the error if it does not.

## Main Statements

* `Balanced.verdict_append`, `Items.verdict_append`: reading goes over balanced tokens and
  over items.
* `closes_or_neverCloses`: an open brace is closed behind balanced tokens, or never.
-/

namespace SymbolAtlas

/-- Tokens with balanced braces.  All other tokens stand for themselves. -/
inductive Balanced : List Token → Prop where
  | nil : Balanced []
  | other {t : Token} {rest : List Token}
      (unbraced : t.kind ≠ .openBrace ∧ t.kind ≠ .closeBrace) (others : Balanced rest) :
      Balanced (t :: rest)
  | block {opening closing : Token} {body rest : List Token}
      (opens : opening.kind = .openBrace) (inner : Balanced body)
      (closes : closing.kind = .closeBrace) (others : Balanced rest) :
      Balanced (opening :: (body ++ closing :: rest))

/-- An item of a module in front of some tokens.  An import goes on as long as it can: a comma
behind an item belongs to it, and so does the word that gives an alias to an item without
one. -/
inductive ModuleItem : List Token → List Token → Prop where
  | importing {p : ImportPhrase} {rest : List Token} (valid : p.Valid) (ends : p.Ends rest) :
      ModuleItem (p.word :: p.bodyRoles.map Prod.fst) rest
  | declaring {kind : DeclKind} {word name : Token} {rest : List Token}
      (word_kind : declKind? word.kind = some kind) (name_kind : name.kind = .identifier) :
      ModuleItem [word, name] rest
  | block {opening closing : Token} {body rest : List Token}
      (opens : opening.kind = .openBrace) (inner : Balanced body)
      (closes : closing.kind = .closeBrace) : ModuleItem (opening :: (body ++ [closing])) rest
  | single {t : Token} {rest : List Token}
      (unbraced : t.kind ≠ .openBrace ∧ t.kind ≠ .closeBrace)
      (unheaded : t.kind ≠ .fromWord ∧ declKind? t.kind = none) : ModuleItem [t] rest

/-- A row of items in front of some tokens. -/
inductive Items : List Token → List Token → Prop where
  | nil {rest : List Token} : Items [] rest
  | cons {item others rest : List Token} (first : ModuleItem item (others ++ rest))
      (more : Items others rest) : Items (item ++ others) rest

/-- The tokens of a module are a row of items. -/
def IsModule (tokens : List Token) : Prop := Items tokens []

/-! ## Reading step by step -/

/-- Whether reading accepts some tokens that stand inside the given open braces, and the error
if it does not. -/
def verdict (braces tokens : List Token) : Except SyntaxError Unit :=
  (outlineFrom braces tokens).map fun _ => ()

theorem verdict_eq_error_iff {braces tokens : List Token} {e : SyntaxError} :
    verdict braces tokens = .error e ↔ outlineFrom braces tokens = .error e := by
  unfold verdict
  cases outlineFrom braces tokens with
  | error e' => simp [Except.map]
  | ok o => exact ⟨nofun, nofun⟩

theorem verdict_eq_ok_iff {braces tokens : List Token} :
    verdict braces tokens = .ok () ↔ ∃ o, outlineFrom braces tokens = .ok o := by
  unfold verdict
  cases outlineFrom braces tokens with
  | error e => exact ⟨nofun, nofun⟩
  | ok o => exact ⟨fun _ => ⟨o, rfl⟩, fun _ => rfl⟩

theorem map_verdict {braces tokens : List Token} (f : Outline → Outline) :
    ((outlineFrom braces tokens).map f).map (fun _ => ()) = verdict braces tokens := by
  unfold verdict
  cases outlineFrom braces tokens <;> rfl

section Steps

variable {braces rest : List Token} {t : Token}

theorem verdict_nil : verdict [] [] = .ok () := by
  rw [verdict, outlineFrom]
  rfl

theorem verdict_openBrace (h : t.kind = .openBrace) :
    verdict braces (t :: rest) = verdict (t :: braces) rest := by
  rw [verdict, outlineFrom_openBrace h]
  rfl

theorem verdict_closeBrace {brace : Token} (h : t.kind = .closeBrace) :
    verdict (brace :: braces) (t :: rest) = verdict braces rest := by
  rw [verdict, outlineFrom_closeBrace h]
  rfl

theorem verdict_unmatched (h : t.kind = .closeBrace) :
    verdict [] (t :: rest) = .error (.unmatchedBrace t.position) := by
  rw [verdict, outlineFrom_unmatched h]
  rfl

theorem verdict_other (hunbraced : t.kind ≠ .openBrace ∧ t.kind ≠ .closeBrace)
    (hunheaded : braces = [] → t.kind ≠ .fromWord ∧ declKind? t.kind = none) :
    verdict braces (t :: rest) = verdict braces rest := by
  by_cases hkind : t.kind = .identifier
  · rw [verdict, outlineFrom_identifier hkind]
    exact map_verdict _
  · rw [verdict, outlineFrom_passed hunbraced hkind hunheaded]
    rfl

theorem verdict_fromWord (h : t.kind = .fromWord) :
    verdict [] (t :: rest) = (importStatement rest).bind fun s => verdict [] s.2 := by
  rw [verdict, outlineFrom_fromWord h]
  cases importStatement rest with
  | error e => rfl
  | ok s => exact map_verdict _

theorem verdict_declaring {kind : DeclKind} (h : declKind? t.kind = some kind) :
    verdict [] (t :: rest) =
      (expect .identifier .declarationName rest).bind fun s => verdict [] s.2 := by
  rw [verdict, outlineFrom_declaring h]
  cases expect .identifier .declarationName rest with
  | error e => rfl
  | ok s => exact map_verdict _

end Steps

/-! ## Reading over items -/

/-- Inside of a brace, reading goes over balanced tokens. -/
theorem Balanced.verdict_append {body : List Token} (h : Balanced body) (brace : Token)
    (braces rest : List Token) :
    verdict (brace :: braces) (body ++ rest) = verdict (brace :: braces) rest := by
  induction h generalizing brace braces rest with
  | nil => rfl
  | other unbraced _ ih =>
    rw [List.cons_append, verdict_other unbraced (absurd · (List.cons_ne_nil _ _)), ih]
  | @block opening closing body others opens _ closes _ ihInner ihOthers =>
    rw [List.cons_append, verdict_openBrace opens, List.append_assoc, ihInner, List.cons_append,
      verdict_closeBrace closes, ihOthers]

theorem ModuleItem.verdict_append {item rest : List Token} (h : ModuleItem item rest) :
    verdict [] (item ++ rest) = verdict [] rest := by
  cases h with
  | importing valid ends =>
    rw [List.cons_append, verdict_fromWord valid.word, importStatement_complete valid ends]
    rfl
  | @declaring kind word name rest word_kind name_kind =>
    have hname : expect .identifier .declarationName (name :: rest) = .ok (name, rest) :=
      expect_eq_ok_iff.2 ⟨rfl, name_kind⟩
    show verdict [] (word :: name :: rest) = _
    rw [verdict_declaring word_kind, hname]
    rfl
  | @block opening closing body rest opens inner closes =>
    rw [List.cons_append, verdict_openBrace opens, List.append_assoc, inner.verdict_append]
    exact verdict_closeBrace closes
  | single unbraced unheaded => exact verdict_other unbraced fun _ => unheaded

/-- Outside of all braces, reading goes over items. -/
theorem Items.verdict_append {items rest : List Token} (h : Items items rest) :
    verdict [] (items ++ rest) = verdict [] rest := by
  induction h with
  | nil => rfl
  | cons first _ ih => rw [List.append_assoc, first.verdict_append, ih]

/-- Modules are accepted. -/
theorem IsModule.verdict_eq {tokens : List Token} (h : IsModule tokens) :
    verdict [] tokens = .ok () := by
  rw [← List.append_nil tokens, Items.verdict_append h, verdict_nil]

/-! ## What stands behind items -/

/-- Only the next token decides whether an import ends, and only a comma or the word for an
alias can continue it. -/
theorem ImportPhrase.Ends.mono {p : ImportPhrase} {rest rest' : List Token} (h : p.Ends rest)
    (hhead : ∀ t ∈ rest'.head?, t ∈ rest.head? ∨ (t.kind ≠ .comma ∧ t.kind ≠ .asWord)) :
    p.Ends rest' := by
  refine ⟨fun t ht => ?_, fun hnone t ht => ?_⟩
  · exact (hhead t ht).elim (h.1 t) And.left
  · exact (hhead t ht).elim (h.2 hnone t) And.right

theorem ModuleItem.mono {item rest rest' : List Token} (h : ModuleItem item rest)
    (hhead : ∀ t ∈ rest'.head?, t ∈ rest.head? ∨ (t.kind ≠ .comma ∧ t.kind ≠ .asWord)) :
    ModuleItem item rest' := by
  cases h with
  | importing valid ends => exact .importing valid (ends.mono hhead)
  | declaring word_kind name_kind => exact .declaring word_kind name_kind
  | block opens inner closes => exact .block opens inner closes
  | single unbraced unheaded => exact .single unbraced unheaded

namespace Items

variable {items rest rest' : List Token}

theorem mono (h : Items items rest)
    (hhead : ∀ t ∈ rest'.head?, t ∈ rest.head? ∨ (t.kind ≠ .comma ∧ t.kind ≠ .asWord)) :
    Items items rest' := by
  induction h with
  | nil => exact .nil
  | @cons item others rest first _ ih =>
    refine .cons (first.mono ?_) (ih hhead)
    cases others with
    | nil => exact hhead
    | cons u others => exact fun t ht => .inl ht

theorem isModule (h : Items items rest) : IsModule items := h.mono nofun

/-- A row of items stands in front of all tokens that do not continue an import. -/
theorem of_isModule (h : IsModule items)
    (hhead : ∀ t ∈ rest.head?, t.kind ≠ .comma ∧ t.kind ≠ .asWord) : Items items rest :=
  Items.mono h fun t ht => .inr (hhead t ht)

end Items

/-! ## Braces that are never closed -/

/-- The brace in front of some tokens is closed among them, behind balanced tokens. -/
def Closes (inner : List Token) : Prop :=
  ∃ body closing back, inner = body ++ closing :: back ∧ Balanced body ∧
    closing.kind = .closeBrace

/-- The tokens behind an open brace do not close it: they only lack closing braces, and the
error is reported at the outermost brace. -/
structure NeverCloses (inner : List Token) : Prop where
  completes : ∃ closings, Balanced (inner ++ closings)
  verdict_eq : ∀ brace braces, verdict (brace :: braces) inner =
    .error (.unclosedBrace ((brace :: braces).getLast (List.cons_ne_nil _ _)).position)

theorem neverCloses_nil : NeverCloses [] where
  completes := ⟨[], .nil⟩
  verdict_eq brace braces := by
    rw [verdict, outlineFrom, List.getLast?_eq_some_getLast (List.cons_ne_nil _ _)]
    rfl

theorem NeverCloses.other {t : Token} {rest : List Token} (h : NeverCloses rest)
    (hunbraced : t.kind ≠ .openBrace ∧ t.kind ≠ .closeBrace) : NeverCloses (t :: rest) where
  completes := by
    obtain ⟨closings, hbalanced⟩ := h.completes
    exact ⟨closings, .other hunbraced hbalanced⟩
  verdict_eq brace braces := by
    rw [verdict_other hunbraced (absurd · (List.cons_ne_nil _ _))]
    exact h.verdict_eq brace braces

theorem NeverCloses.openBrace {t : Token} {rest : List Token} (h : NeverCloses rest)
    (hopens : t.kind = .openBrace) : NeverCloses (t :: rest) where
  completes := by
    obtain ⟨closings, hbalanced⟩ := h.completes
    refine ⟨closings ++ [⟨.closeBrace, "", .start⟩], ?_⟩
    rw [List.cons_append, ← List.append_assoc]
    exact .block hopens hbalanced rfl .nil
  verdict_eq brace braces := by
    rw [verdict_openBrace hopens, h.verdict_eq, List.getLast_cons (List.cons_ne_nil _ _)]

theorem NeverCloses.block {opening closing : Token} {body rest : List Token}
    (h : NeverCloses rest) (hopens : opening.kind = .openBrace) (hinner : Balanced body)
    (hcloses : closing.kind = .closeBrace) :
    NeverCloses (opening :: (body ++ closing :: rest)) where
  completes := by
    obtain ⟨closings, hbalanced⟩ := h.completes
    refine ⟨closings, ?_⟩
    rw [List.cons_append, List.append_assoc]
    exact .block hopens hinner hcloses hbalanced
  verdict_eq brace braces := by
    rw [verdict_openBrace hopens, hinner.verdict_append, verdict_closeBrace hcloses, h.verdict_eq]

/-- An open brace is closed behind balanced tokens, or never. -/
theorem closes_or_neverCloses : (inner : List Token) → Closes inner ∨ NeverCloses inner
  | [] => .inr neverCloses_nil
  | t :: rest => by
    by_cases hcloses : t.kind = .closeBrace
    · exact .inl ⟨[], t, rest, rfl, .nil, hcloses⟩
    by_cases hopens : t.kind = .openBrace
    · rcases closes_or_neverCloses rest with ⟨body, closing, back, rfl, hbody, hclosing⟩ | hnever
      · -- the block is passed over, and what stands behind it decides
        rcases closes_or_neverCloses back with
          ⟨body', closing', back', rfl, hbody', hclosing'⟩ | hnever
        · refine .inl ⟨t :: (body ++ closing :: body'), closing', back', ?_,
            .block hopens hbody hclosing hbody', hclosing'⟩
          rw [List.cons_append, List.append_assoc, List.cons_append]
        · exact .inr (hnever.block hopens hbody hclosing)
      · exact .inr (hnever.openBrace hopens)
    · rcases closes_or_neverCloses rest with ⟨body, closing, back, rfl, hbody, hclosing⟩ | hnever
      · exact .inl ⟨t :: body, closing, back, rfl, .other ⟨hopens, hcloses⟩ hbody, hclosing⟩
      · exact .inr (hnever.other ⟨hopens, hcloses⟩)
termination_by inner => inner.length
decreasing_by
  · exact Nat.lt_succ_self _
  · subst_vars
    simp only [List.length_cons, List.length_append]
    omega
  · exact Nat.lt_succ_self _

end SymbolAtlas
