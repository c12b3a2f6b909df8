import SymbolAtlas.FileTree.Update
import SymbolAtlas.Proofs.Grammar
import SymbolAtlas.Proofs.Linking
import SymbolAtlas.Proofs.Ordering
import SymbolAtlas.Proofs.Stretches

/-!
# The uses that a table records

The table of a compiled module records for each bound name exactly the places
where the text refers to it.  The identifiers of the text are its identifier
tokens, less the segments of package paths and the names that imports give an
alias to, and their extents are in order and hold their texts.

## Main Definitions

* `IndexesReferences`: a table is an exact index of the references of a text.

## Main Statements

* `indexesReferences_of_links`: the table that linking makes is one.
* `compileModule_indexesReferences`: so is the table of a compiled module.
-/

namespace SymbolAtlas

/-- A table is an exact index of the references of a text, which has the given
tokens and is made of the given phrases. -/
structure IndexesReferences (text : String) (tokens : List Token) (phrases : List Phrase)
    (t : SymbolTable) : Prop where
  /-- The uses of a bound name are the tokens that spell it, in text order, but
  for segments of packages and names that imports give an alias to. -/
  exact : ∀ name ∈ t.names, t.usesOf name =
    (tokens.filter fun u => u.kind = .identifier ∧ u.lexeme = name ∧
      u ∉ hidden (rolesOf phrases)).map (·.identifier.span)
  unbound : ∀ name, name ∉ t.names → t.usesOf name = []
  declared : ∀ s ∈ t.declared, s.span ∈ t.usesOf s.name
  imported : ∀ s ∈ t.imported, s.span ∈ t.usesOf s.name
  increasing : ∀ name, (t.usesOf name).Pairwise fun a b => Span.before a b = true
  disjoint : ∀ name other, name ≠ other → ∀ span ∈ t.usesOf name, span ∉ t.usesOf other
  holds_use : ∀ name, ∀ span ∈ t.usesOf name, holds text span name = true
  holds_source : ∀ s ∈ t.imported, holds text s.source.span s.source.name = true

section

variable {text : String} {tokens : List Token} {phrases : List Phrase}

/-- The identifiers of an outline are the identifier tokens that are not hidden. -/
theorem identifiers_eq_filter (htokens : tokenize text = .ok tokens)
    (hphrases : Phrased 0 tokens phrases) :
    (outlineOf phrases).identifiers =
      (tokens.filter fun u => u.kind = .identifier ∧ u ∉ hidden (rolesOf phrases)).map
        Token.identifier := by
  rw [identifiers_outlineOf, hphrases.references_eq (nodup_tokenize htokens)]

theorem pairwise_identifiers (htokens : tokenize text = .ok tokens)
    (hphrases : Phrased 0 tokens phrases) :
    ((outlineOf phrases).identifiers.map (·.span)).Pairwise
      fun a b => Span.before a b = true := by
  rw [identifiers_eq_filter htokens hphrases, List.map_map]
  exact (pairwise_span_tokenize htokens).sublist (List.filter_sublist.map _)

theorem nodup_identifiers (htokens : tokenize text = .ok tokens)
    (hphrases : Phrased 0 tokens phrases) :
    ((outlineOf phrases).identifiers.map (·.span)).Nodup := by
  refine (pairwise_identifiers htokens hphrases).imp ?_
  rintro a b hab rfl
  rw [linearlyOrders_span.irrefl] at hab
  cases hab

theorem holds_of_mem_identifiers (htokens : tokenize text = .ok tokens)
    (hphrases : Phrased 0 tokens phrases) {i : Identifier}
    (hi : i ∈ (outlineOf phrases).identifiers) : holds text i.span i.text = true := by
  rw [identifiers_eq_filter htokens hphrases] at hi
  obtain ⟨u, hu, rfl⟩ := List.mem_map.1 hi
  obtain ⟨hmem, hkind⟩ := List.mem_filter.1 hu
  exact holds_identifier htokens hmem (by simpa using (of_decide_eq_true hkind).1)

/-- The table that linking makes is an exact index of the references. -/
theorem indexesReferences_of_links (htokens : tokenize text = .ok tokens)
    (hphrases : Phrased 0 tokens phrases) {path : Path} {dependencies : List Module}
    {t : SymbolTable} (hlinks : Links path (outlineOf phrases) dependencies t) :
    IndexesReferences text tokens phrases t := by
  have huses := hlinks.usesOf_eq (nodup_identifiers htokens hphrases)
  have hmem : ∀ {name span}, span ∈ t.usesOf name ↔
      name ∈ t.names ∧ (⟨name, span⟩ : Identifier) ∈ (outlineOf phrases).identifiers :=
    hlinks.mem_usesOf_iff (nodup_identifiers htokens hphrases)
  refine ⟨?_, ?_, ?_, ?_, ?_, ?_, ?_, ?_⟩
  · intro name hname
    rw [huses, if_pos hname, identifiers_eq_filter htokens hphrases, List.filter_map,
      List.filter_filter, List.map_map]
    congr 1
    refine List.filter_congr fun u _ => ?_
    simp only [Function.comp_apply, Token.identifier, Bool.decide_and]
    exact Bool.and_left_comm _ _ _
  · intro name hname
    rw [huses, if_neg hname]
  · intro s hs
    have hname : s.name ∈ t.names := List.mem_append_left _ (List.mem_map_of_mem hs)
    rw [hlinks.declared] at hs
    obtain ⟨d, hd, rfl⟩ := List.mem_map.1 hs
    exact hmem.2 ⟨hname, name_mem_identifiers hd⟩
  · intro s hs
    have hname : s.name ∈ t.names := List.mem_append_right _ (List.mem_map_of_mem hs)
    obtain ⟨pair, hpair, item, hitem, symbol, -, rfl⟩ := hlinks.exists_item hs
    exact hmem.2 ⟨hname, binding_mem_identifiers (List.of_mem_zip hpair).1 hitem⟩
  · intro name
    rw [huses]
    split
    · exact (pairwise_identifiers htokens hphrases).sublist (List.filter_sublist.map _)
    · exact .nil
  · intro name other hne span hspan hother
    -- one place has one identifier
    have heq := List.inj_on_of_nodup_map (nodup_identifiers htokens hphrases)
      (hmem.1 hspan).2 (hmem.1 hother).2 rfl
    exact hne (congrArg Identifier.text heq)
  · intro name span hspan
    exact holds_of_mem_identifiers htokens hphrases (hmem.1 hspan).2
  · intro s hs
    obtain ⟨pair, hpair, item, hitem, symbol, -, rfl⟩ := hlinks.exists_item hs
    obtain ⟨u, hu, hkind, hname⟩ :=
      hphrases.exists_token_of_item (List.of_mem_zip hpair).1 hitem
    simp only [ImportItem.importedAs, hname]
    exact holds_identifier htokens hu hkind

end

/-- The text of a linked module has tokens that are made of phrases, and its table
is an exact index of the references among them. -/
theorem Linked.indexesReferences {config : Config} {tree : FileTree} {m : Module}
    (h : Linked config tree m) : ∃ tokens, tokenize m.source = .ok tokens ∧
      (∃ phrases, Phrased 0 tokens phrases) ∧
      ∀ phrases, Phrased 0 tokens phrases → IndexesReferences m.source tokens phrases m.table := by
  cases h with
  | @intro _ dependencies links linked =>
    obtain ⟨outline, hparse, -, hlinks⟩ := links
    obtain ⟨tokens, phrases, htokens, hphrases, rfl⟩ := parse_eq_ok_iff.1 hparse
    refine ⟨tokens, htokens, ⟨phrases, hphrases⟩, fun phrases' hphrases' => ?_⟩
    have hparse' := parse_eq_ok_iff.2 ⟨tokens, phrases', htokens, hphrases', rfl⟩
    rw [Except.ok.inj (hparse.symm.trans hparse')] at hlinks
    exact indexesReferences_of_links htokens hphrases' hlinks

theorem Linked.exists_indexesReferences {config : Config} {tree : FileTree} {m : Module}
    (h : Linked config tree m) :
    ∃ tokens phrases, IndexesReferences m.source tokens phrases m.table := by
  obtain ⟨tokens, -, ⟨phrases, hphrases⟩, hindexes⟩ := h.indexesReferences
  exact ⟨tokens, phrases, hindexes phrases hphrases⟩

/-- The table of a compiled module is an exact index of the references of its
text, whatever the file tree and whether or not a buffer is given. -/
theorem compileModule_indexesReferences {config : Config} {tree : FileTree} {file : Path}
    {buffer : Option String} {m : Module} (h : config.compileModule tree file buffer = .ok m) :
    ∃ tokens, tokenize m.source = .ok tokens ∧
      (∃ phrases, Phrased 0 tokens phrases) ∧
      ∀ phrases, Phrased 0 tokens phrases → IndexesReferences m.source tokens phrases m.table :=
  (linked_of_compileModule h).2.1.indexesReferences

/-- Two modules, one of which imports a name of the other under an alias. -/
def aliasTree : FileTree :=
  ((FileTree.bare ⟨"/w"⟩).write ⟨"/w/a.ol"⟩ (.text "type Shape")).write ⟨"/w/b.ol"⟩
    (.text "from .a import Shape as S\ntype T {S a}")

/-- The importing module, compiled. -/
def aliasModule : Module :=
  { path := ⟨"/w/b.ol"⟩
    source := "from .a import Shape as S\ntype T {S a}"
    table :=
      { owner := ⟨"/w/b.ol"⟩
        declared := [⟨"T", .type, ⟨1, 5, 6⟩⟩]
        imported := [⟨"S", ⟨0, 24, 25⟩, ⟨⟨"/w/a.ol"⟩, "Shape", ⟨0, 15, 20⟩⟩,
          ⟨⟨"/w/a.ol"⟩, "Shape", .type, ⟨0, 5, 10⟩⟩, true⟩]
        uses := [("S", [⟨0, 24, 25⟩, ⟨1, 8, 9⟩]), ("T", [⟨1, 5, 6⟩])] } }

/-- The alias is indexed where it is bound and where it is used; the name behind
it and the package, which has the name of a field, are not. -/
theorem compileModule_indexesReferences_alias :
    aliasModule.table.usesOf "S" = [⟨0, 24, 25⟩, ⟨1, 8, 9⟩] ∧
      ∃ tokens, tokenize aliasModule.source = .ok tokens ∧
        (∃ phrases, Phrased 0 tokens phrases) ∧
        ∀ phrases, Phrased 0 tokens phrases →
          IndexesReferences aliasModule.source tokens phrases aliasModule.table := by
  have hcompile : Config.default.compileModule aliasTree ⟨"/w/b.ol"⟩ none = .ok aliasModule :=
    eq_ok_of_toOption (by decide +kernel)
  exact ⟨by decide, compileModule_indexesReferences hcompile⟩

end SymbolAtlas
