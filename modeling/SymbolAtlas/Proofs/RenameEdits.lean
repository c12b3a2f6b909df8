import Mathlib.Data.List.Pairwise
import SymbolAtlas.Proofs.RenameOrigins

/-!
# The edits of a rename are whole tokens

In one module a plan may edit uses of the name and names that aliased imports take from
elsewhere, and these are collected binding by binding, not in the order of the text.  All
of them are identifier tokens of the text, though, and different tokens do not overlap.  So
the edits of a module can be made one after the other, in any order, and each replaces
exactly one word.

## Main Definitions

* `EditsTokens`: some edits replace whole tokens of a text, each once.
* `RenamePlan.EditsTokens`: the edits of a plan do so in each of its modules.

## Main Statements

* `stop_le_start_of_before`: different identifier tokens do not overlap.
* `Linked.exists_token_of_use`, `Linked.exists_token_of_source`: what a table records is
  spelt by identifier tokens.
* `completed_editsTokens`: so are the edits of all completed plans.
-/

namespace SymbolAtlas

/-- Some edits of a text are identifier tokens that spell a name, in text order and
without overlap. -/
structure EditsTokens (text name : String) (edits : List RenameEdit) : Prop where
  /-- The edits are strictly increasing by their starts. -/
  increasing : edits.Pairwise fun a b =>
    a.span.line < b.span.line ∨ a.span.line = b.span.line ∧ a.span.start < b.span.start
  /-- On one line, each edit ends before the next begins. -/
  disjoint : edits.Pairwise fun a b => a.span.line = b.span.line → a.span.stop ≤ b.span.start
  /-- All edits are for the name. -/
  symbol : ∀ edit ∈ edits, edit.symbol = name
  /-- Each edit has the extent of exactly one identifier token, which spells the name. -/
  whole : ∃ tokens, tokenize text = .ok tokens ∧ ∀ edit ∈ edits, ∃! t, t ∈ tokens ∧
    t.kind = .identifier ∧ t.lexeme = name ∧ t.identifier.span = edit.span

/-- In each module that a plan lists, its edits are tokens of the text there. -/
def RenamePlan.EditsTokens (tree : FileTree) (name : String) (plan : RenamePlan) : Prop :=
  ∀ entry ∈ plan.edits, ∃ text, tree.readText entry.1 = .ok text ∧
    SymbolAtlas.EditsTokens text name entry.2

/-! ## Identifier tokens do not overlap -/

section Tokenized

variable {text : String} {tokens : List Token} {t u : Token}

/-- Of two different tokens one ends before the other begins. -/
theorem apart_of_mem_tokenize (h : tokenize text = .ok tokens) (ht : t ∈ tokens)
    (hu : u ∈ tokens) (hne : t ≠ u) :
    t.stop.AtOrBefore u.start ∨ u.stop.AtOrBefore t.start := by
  have hsymm : Std.Symm fun a b : Token =>
      a.stop.AtOrBefore b.start ∨ b.stop.AtOrBefore a.start := ⟨fun _ _ => Or.symm⟩
  have hapart : tokens.Pairwise fun a b =>
      a.stop.AtOrBefore b.start ∨ b.stop.AtOrBefore a.start := (pairwise_tokenize h).imp .inl
  exact hapart.forall ht hu hne

/-- A token whose extent comes first ends before the other begins. -/
theorem atOrBefore_of_span_before (h : tokenize text = .ok tokens) (ht : t ∈ tokens)
    (hu : u ∈ tokens) (hbefore : t.identifier.span.before u.identifier.span = true) :
    t.stop.AtOrBefore u.start := by
  have hne : t ≠ u := by
    rintro rfl
    rw [linearlyOrders_span.irrefl] at hbefore
    cases hbefore
  rcases apart_of_mem_tokenize h ht hu hne with hfirst | hsecond
  · exact hfirst
  · -- otherwise the extent of the second token would come first
    have hstart : u.start.Before t.start :=
      (Cursor.before_advanceAll _ (ne_nil_of_mem_tokenize h hu)).trans_atOrBefore hsecond
    rw [linearlyOrders_span.asymm (Span.before_of_start hstart)] at hbefore
    cases hbefore

/-- A token whose extent comes first starts before the other. -/
theorem start_before_of_span_before (h : tokenize text = .ok tokens) (ht : t ∈ tokens)
    (hu : u ∈ tokens) (hbefore : t.identifier.span.before u.identifier.span = true) :
    t.start.Before u.start :=
  (Cursor.before_advanceAll _ (ne_nil_of_mem_tokenize h ht)).trans_atOrBefore
    (atOrBefore_of_span_before h ht hu hbefore)

/-- The end of an identifier token is the end of its extent. -/
theorem stop_of_mem_tokenize (h : tokenize text = .ok tokens) (ht : t ∈ tokens)
    (hkind : t.kind = .identifier) :
    t.stop.line = t.identifier.span.line ∧ t.stop.column = t.identifier.span.stop := by
  have hclean := (isIdentifier_of_mem_tokenize h ht hkind).isClean
  obtain ⟨hline, hcolumn⟩ := Cursor.advanceAll_of_clean hclean t.start
  refine ⟨hline, ?_⟩
  rw [Token.stop, hcolumn, String.length_toList]
  rfl

/-- Identifier tokens whose extents come one after the other do not overlap. -/
theorem stop_le_start_of_before (h : tokenize text = .ok tokens) (ht : t ∈ tokens)
    (hkind : t.kind = .identifier) (hu : u ∈ tokens)
    (hbefore : t.identifier.span.before u.identifier.span = true)
    (hline : t.identifier.span.line = u.identifier.span.line) :
    t.identifier.span.stop ≤ u.identifier.span.start := by
  obtain ⟨hstopLine, hstop⟩ := stop_of_mem_tokenize h ht hkind
  have hstart : u.start.line = u.identifier.span.line ∧
      u.start.column = u.identifier.span.start := ⟨rfl, rfl⟩
  rcases atOrBefore_of_span_before h ht hu hbefore with hearlier | ⟨-, hcolumn⟩
  · omega
  · omega

/-- Identifier tokens with one extent are one token. -/
theorem eq_of_identifier_span (h : tokenize text = .ok tokens) (ht : t ∈ tokens)
    (hu : u ∈ tokens) (hspan : t.identifier.span = u.identifier.span) : t = u := by
  have hnodup : (tokens.map (·.identifier.span)).Nodup := by
    refine (pairwise_span_tokenize h).imp ?_
    rintro a b hab rfl
    rw [linearlyOrders_span.irrefl] at hab
    cases hab
  exact List.inj_on_of_nodup_map hnodup ht hu hspan

end Tokenized

/-! ## What tables record is spelt by tokens -/

variable {config : Config} {tree : FileTree}

/-- A recorded use of a name is an identifier token that spells it. -/
theorem Linked.exists_token_of_use {m : Module} (h : Linked config tree m) {tokens : List Token}
    (htokens : tokenize m.source = .ok tokens) {name : String} {span : Span}
    (hspan : span ∈ m.table.usesOf name) :
    ∃ t ∈ tokens, t.kind = .identifier ∧ t.lexeme = name ∧ t.identifier.span = span := by
  obtain ⟨tokens', htokens', ⟨phrases, hphrases⟩, hindexes⟩ := h.indexesReferences
  obtain rfl := Except.ok.inj (htokens.symm.trans htokens')
  rw [(hindexes phrases hphrases).exact name (h.mem_names_of_use hspan)] at hspan
  obtain ⟨t, ht, hspan⟩ := List.mem_map.1 hspan
  obtain ⟨hmem, hspells⟩ := List.mem_filter.1 ht
  obtain ⟨hkind, hlexeme, -⟩ := of_decide_eq_true hspells
  exact ⟨t, hmem, hkind, hlexeme, hspan⟩

/-- The name that an import mentions is an identifier token that spells it. -/
theorem Linked.exists_token_of_source {m : Module} (h : Linked config tree m)
    {tokens : List Token} (htokens : tokenize m.source = .ok tokens) {s : ImportedSymbol}
    (hs : s ∈ m.table.imported) :
    ∃ t ∈ tokens, t.kind = .identifier ∧ t.lexeme = s.source.name ∧
      t.identifier.span = s.source.span := by
  cases h with
  | intro links _ =>
    obtain ⟨outline, hparse, -, hlinks⟩ := links
    obtain ⟨tokens', phrases, htokens', hphrases, rfl⟩ := parse_eq_ok_iff.1 hparse
    obtain rfl := Except.ok.inj (htokens.symm.trans htokens')
    obtain ⟨pair, hpair, item, hitem, symbol, -, rfl⟩ := hlinks.exists_item hs
    obtain ⟨t, ht, hkind, hname⟩ := hphrases.exists_token_of_item (List.of_mem_zip hpair).1 hitem
    refine ⟨t, ht, hkind, ?_, ?_⟩
    · exact congrArg Identifier.text hname.symm
    · exact congrArg Identifier.span hname.symm

/-! ## So are the edits of plans -/

variable {file root : Path} {name : String}

namespace PlannedFor

variable {plan : RenamePlan} {w : Workspace} {start : Module} {modules : List Module}
  {owner : Binding} {symbol : Symbol}
  (h : PlannedFor config tree file name root plan w start modules owner symbol)

include h

/-- Each place that a plan edits is an identifier token that spells the name. -/
theorem exists_token_of_place {m : Module}
    (hm : m ∈ (ImportIndex.ofModules (modules ++ [start])).modules) {tokens : List Token}
    (htokens : tokenize m.source = .ok tokens) {span : Span}
    (hplace : (m.path, span) ∈ plan.places) :
    ∃ t ∈ tokens, t.kind = .identifier ∧ t.lexeme = name ∧ t.identifier.span = span := by
  obtain ⟨hlinked, -⟩ := h.linked.linked m hm
  rcases (h.mem_places_iff hm).1 hplace with ⟨-, huse⟩ | ⟨s, hs, -, rfl, hclimb⟩
  · exact hlinked.exists_token_of_use htokens huse
  · -- along the climb the name stays what it is
    obtain ⟨d, -, hsource⟩ := hlinked.exists_dependency hs
    have hname : s.source.name = name :=
      (h.linked.climb_all hsource hclimb).1.symm.trans h.owner_shares.1
    rw [← hname]
    exact hlinked.exists_token_of_source htokens hs

/-- In each module the edits are in order by their extents. -/
theorem pairwise_before {entry : Path × List RenameEdit} (hentry : entry ∈ plan.edits) :
    entry.2.Pairwise fun a b => a.span.before b.span = true := by
  have hordered := inOrder_editsAt_spread (.ofModules (modules ++ [start])) owner owner.name
  rw [← h.edits] at hordered
  exact (hordered.2 entry hentry).2

theorem editsTokens : plan.EditsTokens tree name := by
  intro entry hentry
  obtain ⟨span, hspan⟩ := h.exists_place_of_mem_edits hentry
  obtain ⟨m, hm, hpath⟩ := h.exists_of_mem_places hspan
  obtain ⟨hlinked, hdisk⟩ := h.linked.linked m hm
  obtain ⟨tokens, htokens, -⟩ := hlinked.indexesReferences
  have htoken : ∀ edit ∈ entry.2, ∃ t ∈ tokens, t.kind = .identifier ∧ t.lexeme = name ∧
      t.identifier.span = edit.span := by
    intro edit hedit
    apply h.exists_token_of_place hm htokens
    rw [hpath]
    exact List.mem_flatMap.2 ⟨entry, hentry, List.mem_map_of_mem hedit⟩
  have hpairwise := h.pairwise_before hentry
  refine ⟨m.source, by rw [← hdisk.text, hpath], ?_, ?_, ?_, tokens, htokens, ?_⟩
  · refine hpairwise.imp_of_mem fun {a b} ha hb hbefore => ?_
    obtain ⟨t, ht, -, -, hspan⟩ := htoken a ha
    obtain ⟨u, hu, -, -, hspan'⟩ := htoken b hb
    rw [← hspan, ← hspan'] at hbefore ⊢
    exact start_before_of_span_before htokens ht hu hbefore
  · refine hpairwise.imp_of_mem fun {a b} ha hb hbefore hline => ?_
    obtain ⟨t, ht, hkind, -, hspan⟩ := htoken a ha
    obtain ⟨u, hu, -, -, hspan'⟩ := htoken b hb
    rw [← hspan, ← hspan'] at hbefore hline ⊢
    exact stop_le_start_of_before htokens ht hkind hu hbefore hline
  · exact fun edit hedit => h.symbol_of_mem_edits hentry hedit
  · intro edit hedit
    obtain ⟨t, ht, hkind, hlexeme, hspan⟩ := htoken edit hedit
    refine ⟨t, ⟨ht, hkind, hlexeme, hspan⟩, ?_⟩
    rintro u ⟨hu, -, -, hspan'⟩
    exact eq_of_identifier_span htokens hu ht (hspan'.trans hspan.symm)

end PlannedFor

/-- A plan without edits has none to be made. -/
theorem RenamePlan.editsTokens_of_nil {plan : RenamePlan} (h : plan.edits = []) (tree : FileTree)
    (name : String) : plan.EditsTokens tree name := by
  intro entry hentry
  rw [h] at hentry
  cases hentry

/-- The edits of every completed plan are whole identifier tokens that spell the name that
is renamed, whether it was given or found at a caret.  In each module they are in text
order and do not overlap. -/
theorem completed_editsTokens (config : Config) (tree : FileTree) (file root : Path)
    (plan : RenamePlan) :
    (∀ name, (planRenameSymbol config.compiler config file name root tree).1 =
        .ok (.completed plan) → plan.EditsTokens tree name) ∧
      ∀ line column, (planRename config.compiler config file line column root tree).1 =
        .ok (.completed plan) → ∃ name, plan.EditsTokens tree name := by
  by_cases hedits : plan.edits = []
  · exact ⟨fun name _ => plan.editsTokens_of_nil hedits tree name,
      fun _ _ _ => ⟨"", plan.editsTokens_of_nil hedits tree ""⟩⟩
  constructor
  · intro name hplan
    obtain ⟨_, _, _, _, _, h⟩ := exists_plannedFor hplan hedits
    exact h.editsTokens
  · intro line column hplan
    obtain ⟨word, _, _, _, _, _, -, -, h⟩ := exists_plannedFor_of_planRename hplan hedits
    exact ⟨word.text, h.editsTokens⟩

/-- A declaration, and a module that imports it twice, once under an alias. -/
def twiceTree : FileTree :=
  ((FileTree.bare ⟨"/w"⟩).write ⟨"/w/a.ol"⟩ (.text "type Shape")).write ⟨"/w/b.ol"⟩
    (.text "from .a import Shape as Form, Shape\ntype T {Shape s}")

/-- The plan that edits the declaration, both imports and the use. -/
def twicePlan : RenamePlan :=
  ⟨[(⟨"/w/a.ol"⟩, [⟨⟨0, 5, 10⟩, "Shape"⟩]),
    (⟨"/w/b.ol"⟩, [⟨⟨0, 15, 20⟩, "Shape"⟩, ⟨⟨0, 30, 35⟩, "Shape"⟩, ⟨⟨1, 8, 13⟩, "Shape"⟩])]⟩

/-- The name behind the alias is edited in its place among the uses. -/
theorem completed_editsTokens_twice :
    (planRenameSymbol Config.default.compiler .default ⟨"/w/a.ol"⟩ "Shape" ⟨"/w"⟩ twiceTree).1 =
        .ok (.completed twicePlan) ∧
      ∃ text, twiceTree.readText ⟨"/w/b.ol"⟩ = .ok text ∧ EditsTokens text "Shape"
        [⟨⟨0, 15, 20⟩, "Shape"⟩, ⟨⟨0, 30, 35⟩, "Shape"⟩, ⟨⟨1, 8, 13⟩, "Shape"⟩] := by
  have hplan : (planRenameSymbol Config.default.compiler .default ⟨"/w/a.ol"⟩ "Shape" ⟨"/w"⟩
      twiceTree).1 = .ok (.completed twicePlan) := eq_ok_of_toOption (by decide +kernel)
  have hedits := (completed_editsTokens .default twiceTree ⟨"/w/a.ol"⟩ ⟨"/w"⟩ twicePlan).1 "Shape"
    hplan
  exact ⟨hplan, hedits _ (List.mem_cons_of_mem _ List.mem_cons_self)⟩

end SymbolAtlas
