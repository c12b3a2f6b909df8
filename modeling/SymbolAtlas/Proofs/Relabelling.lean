import SymbolAtlas.Proofs.Grammar
import SymbolAtlas.Proofs.Tables

/-!
# Relabelled outlines and tables

When the tokens of a module get other lexemes and places, its phrases stay what
they are, and its outline has other identifiers at the same places of its
structure.  A relabelling says what becomes of the names and spans of each
module; when the names of a module stay different from each other, its table is
the relabelled one.

## Main Definitions

* `Phrase.map`, `Outline.map`: phrases with other tokens, outlines with other
  identifiers.
* `Relabelling`: what becomes of the names, spans and texts of modules.
* `Relabelling.table`, `Relabelling.module`: the relabelled tables and modules.

## Main Statements

* `Phrased.map`, `outlineOf_map`: the outline of relabelled tokens.
* `Links.relabel`: linking relabelled outlines gives relabelled tables.
-/

namespace SymbolAtlas

/-! ## Phrases with other tokens -/

/-- The item with other tokens. -/
def ItemPhrase.map (f : Token → Token) (p : ItemPhrase) : ItemPhrase :=
  ⟨f p.name, p.alias?.map (Prod.map f f)⟩

/-- The import with other tokens. -/
def ImportPhrase.map (f : Token → Token) (p : ImportPhrase) : ImportPhrase :=
  { word := f p.word
    dots := p.dots.map f
    segment := f p.segment
    segments := p.segments.map (Prod.map f f)
    importWord := f p.importWord
    item := p.item.map f
    items := p.items.map (Prod.map f (ItemPhrase.map f)) }

/-- The phrase with other tokens. -/
def Phrase.map (f : Token → Token) : Phrase → Phrase
  | importing p => importing (p.map f)
  | declaring kind word name => declaring kind (f word) (f name)
  | single t => single (f t)

section Tokens

variable {f : Token → Token}

theorem ItemPhrase.roles_map (p : ItemPhrase) : (p.map f).roles = p.roles.map (Prod.map f id) := by
  obtain ⟨name, alias?⟩ := p
  cases alias? <;> rfl

theorem ImportPhrase.segmentRoles_map (segments : List (Token × Token)) :
    segmentRoles (segments.map (Prod.map f f)) = (segmentRoles segments).map (Prod.map f id) := by
  induction segments with
  | nil => rfl
  | cons s segments ih => simpa [segmentRoles] using ih

theorem ImportPhrase.itemRoles_map (items : List (Token × ItemPhrase)) :
    itemRoles (items.map (Prod.map f (ItemPhrase.map f))) =
      (itemRoles items).map (Prod.map f id) := by
  induction items with
  | nil => rfl
  | cons i items ih => simpa [itemRoles, i.2.roles_map] using ih

theorem ImportPhrase.bodyRoles_map (p : ImportPhrase) :
    (p.map f).bodyRoles = p.bodyRoles.map (Prod.map f id) := by
  simp [bodyRoles, ImportPhrase.map, segmentRoles_map, itemRoles_map, ItemPhrase.roles_map,
    Function.comp_def]

theorem ImportPhrase.bodyTokens_map (p : ImportPhrase) :
    (p.map f).bodyRoles.map Prod.fst = (p.bodyRoles.map Prod.fst).map f := by
  rw [bodyRoles_map, List.map_map, List.map_map]
  rfl

variable (hkind : ∀ t, (f t).kind = t.kind)

include hkind

theorem ItemPhrase.Valid.map {p : ItemPhrase} (h : p.Valid) : (p.map f).Valid := by
  refine ⟨(hkind _).trans h.1, fun a ha => ?_⟩
  obtain ⟨pair, hpair, rfl⟩ := Option.map_eq_some_iff.1 ha
  exact ⟨(hkind _).trans (h.2 pair hpair).1, (hkind _).trans (h.2 pair hpair).2⟩

theorem ImportPhrase.Valid.map {p : ImportPhrase} (h : p.Valid) : (p.map f).Valid where
  word := (hkind _).trans h.word
  dots t ht := by
    obtain ⟨dot, hdot, rfl⟩ := List.mem_map.1 ht
    exact (hkind dot).trans (h.dots dot hdot)
  segment := (hkind _).trans h.segment
  segments s hs := by
    obtain ⟨old, hold, rfl⟩ := List.mem_map.1 hs
    exact ⟨(hkind _).trans (h.segments old hold).1, (hkind _).trans (h.segments old hold).2⟩
  importWord := (hkind _).trans h.importWord
  item := h.item.map hkind
  items i hi := by
    obtain ⟨old, hold, rfl⟩ := List.mem_map.1 hi
    exact ⟨(hkind _).trans (h.items old hold).1, (h.items old hold).2.map hkind⟩

theorem forall_head?_map {kind : Token.Kind} {rest : List Token}
    (h : ∀ t ∈ rest.head?, t.kind ≠ kind) : ∀ t ∈ (rest.map f).head?, t.kind ≠ kind := by
  cases rest with
  | nil => exact nofun
  | cons t rest =>
    intro t' ht'
    obtain rfl : f t = t' := by simpa using ht'
    rw [hkind]
    exact h t rfl

theorem ImportPhrase.Ends.map {p : ImportPhrase} {rest : List Token} (h : p.Ends rest) :
    (p.map f).Ends (rest.map f) := by
  have hlast : (p.map f).lastItem = p.lastItem.map f := by
    simp only [lastItem, ImportPhrase.map, List.getLast?_map]
    cases p.items.getLast? <;> rfl
  refine ⟨forall_head?_map hkind h.1, fun hnone => forall_head?_map hkind (h.2 ?_)⟩
  rw [hlast] at hnone
  exact Option.map_eq_none_iff.1 hnone

/-- Tokens of the same kinds make up the same phrases. -/
theorem Phrased.map {depth : Nat} {tokens : List Token} {phrases : List Phrase}
    (h : Phrased depth tokens phrases) :
    Phrased depth (tokens.map f) (phrases.map (Phrase.map f)) := by
  induction h with
  | nil => exact .nil
  | openBrace kind _ ih => exact .openBrace ((hkind _).trans kind) ih
  | closeBrace kind _ ih => exact .closeBrace ((hkind _).trans kind) ih
  | other unbraced unheaded _ ih => exact .other (by rwa [hkind]) (by rwa [hkind]) ih
  | declaring word_kind name_kind _ ih =>
    exact .declaring (by rwa [hkind]) ((hkind _).trans name_kind) ih
  | @importing p rest phrases valid ends others ih =>
    have himport := Phrased.importing (valid.map hkind) (ends.map hkind) ih
    rw [p.bodyTokens_map, ← List.map_append] at himport
    exact himport

end Tokens

/-! ## Outlines with other identifiers -/

/-- The item with other identifiers. -/
def ImportItem.map (g : Identifier → Identifier) (item : ImportItem) : ImportItem :=
  ⟨g item.name, item.alias?.map g⟩

/-- The statement with other identifiers. -/
def ImportStatement.map (g : Identifier → Identifier) (s : ImportStatement) : ImportStatement :=
  { s with
    first := s.first.map g
    others := s.others.map (ImportItem.map g) }

/-- The declaration with another identifier. -/
def Declaration.map (g : Identifier → Identifier) (d : Declaration) : Declaration :=
  ⟨d.kind, g d.name⟩

/-- The outline with other identifiers. -/
def Outline.map (g : Identifier → Identifier) (o : Outline) : Outline :=
  { imports := o.imports.map (ImportStatement.map g)
    declarations := o.declarations.map (Declaration.map g)
    identifiers := o.identifiers.map g }

/-- Other tokens carry over what a token stands for: the lexeme of a segment, and
the identifier that any other identifier token spells. -/
structure Carries (f : Token → Token) (g : Identifier → Identifier) (r : Token × Role) : Prop where
  segment : r.2 = .segment → (f r.1).lexeme = r.1.lexeme
  identifier : r.2 = .reference ∨ r.2 = .aliasedName → (f r.1).identifier = g r.1.identifier

section Outlines

variable {f : Token → Token} {g : Identifier → Identifier}

theorem ImportItem.binding_map (item : ImportItem) : (item.map g).binding = g item.binding := by
  obtain ⟨name, alias?⟩ := item
  cases alias? <;> rfl

theorem ImportStatement.items_map (s : ImportStatement) :
    (s.map g).items = s.items.map (ImportItem.map g) := rfl

theorem ItemPhrase.item_map {p : ItemPhrase} (h : ∀ r ∈ p.roles, Carries f g r) :
    (p.map f).item = p.item.map g := by
  obtain ⟨name, alias?⟩ := p
  cases alias? with
  | none =>
    have hname := (h (name, .reference) (by simp [roles])).identifier (.inl rfl)
    simp [ItemPhrase.map, item, ImportItem.map, hname]
  | some pair =>
    have hname := (h (name, .aliasedName) (by simp [roles])).identifier (.inr rfl)
    have hother := (h (pair.2, .reference) (by simp [roles])).identifier (.inl rfl)
    simp [ItemPhrase.map, item, ImportItem.map, hname, hother]

theorem ImportPhrase.statement_map {p : ImportPhrase} (h : ∀ r ∈ p.bodyRoles, Carries f g r) :
    (p.map f).statement = p.statement.map g := by
  simp only [bodyRoles, segmentRoles, itemRoles, List.forall_mem_append, List.forall_mem_cons,
    List.forall_mem_map, List.forall_mem_flatMap] at h
  obtain ⟨⟨-, hsegment, hsegments⟩, -, hitem, hitems⟩ := h
  have hlexeme := hsegment.segment rfl
  have hlexemes : ∀ s ∈ p.segments, (f s.2).lexeme = s.2.lexeme :=
    fun s hs => (hsegments s hs).2.1.segment rfl
  have hfirst := ItemPhrase.item_map hitem
  have hothers : ∀ i ∈ p.items, (i.2.map f).item = i.2.item.map g :=
    fun i hi => ItemPhrase.item_map (hitems i hi).2
  simp only [statement, ImportPhrase.map, ImportStatement.map, List.length_map, List.map_map,
    Function.comp_def, Prod.map_snd, hlexeme, hfirst, List.map_congr_left hlexemes,
    List.map_congr_left hothers]

/-- The outline of phrases with other tokens. -/
theorem outlineOf_map {phrases : List Phrase} (h : ∀ r ∈ rolesOf phrases, Carries f g r)
    (hkind : ∀ t, (f t).kind = t.kind) :
    outlineOf (phrases.map (Phrase.map f)) = (outlineOf phrases).map g := by
  induction phrases with
  | nil => rfl
  | cons phrase phrases ih =>
    obtain ⟨hfirst, hothers⟩ := List.forall_mem_append.1 h
    rw [List.map_cons, outlineOf_cons, outlineOf_cons, ih hothers]
    cases phrase with
    | importing p =>
      have hstatement := ImportPhrase.statement_map (List.forall_mem_cons.1 hfirst).2
      simp only [Phrase.map, Phrase.addTo, hstatement, Outline.importing, Outline.map,
        ImportStatement.items_map, List.map_cons, List.map_append, List.map_map, Function.comp_def,
        ImportItem.binding_map]
    | declaring kind word name =>
      have hname := (hfirst (name, .reference) (by simp [Phrase.roles])).identifier (.inl rfl)
      simp only [Phrase.map, Phrase.addTo, hname, Outline.declare, Outline.map, Declaration.map,
        List.map_cons]
    | single t =>
      simp only [Phrase.map, Phrase.addTo, hkind]
      by_cases hidentifier : t.kind = .identifier
      · have hname := (hfirst (t, .reference) (by simp [Phrase.roles, hidentifier])).identifier
          (.inl rfl)
        simp only [hidentifier, if_true, hname, Outline.mention, Outline.map, List.map_cons]
      · simp only [hidentifier, if_false]

end Outlines

/-! ## Relabelled tables -/

/-- What becomes of the names, the spans and the text of each module. -/
structure Relabelling where
  rename : Path → String → String
  move : Path → Span → Span
  rewrite : Path → String → String

namespace Relabelling

variable (R : Relabelling)

/-- A relabelled declaration of a module. -/
def declared (path : Path) (s : DeclaredSymbol) : DeclaredSymbol :=
  ⟨R.rename path s.name, s.kind, R.move path s.span⟩

/-- A relabelled origin, whose name and place are those of its own module. -/
def origin (o : Origin) : Origin :=
  ⟨o.module, R.rename o.module o.name, o.kind, R.move o.module o.span⟩

/-- A relabelled import of a module.  The name that is imported is one of the
imported module, although it is written in the importing one. -/
def imported (path : Path) (s : ImportedSymbol) : ImportedSymbol :=
  { name := R.rename path s.name
    span := R.move path s.span
    source := ⟨s.source.module, R.rename s.source.module s.source.name, R.move path s.source.span⟩
    origin := R.origin s.origin
    aliased := s.aliased }

/-- A relabelled symbol of a module. -/
def symbol (path : Path) : Symbol → Symbol
  | .declared s => .declared (R.declared path s)
  | .imported s => .imported (R.imported path s)

/-- The relabelled uses of a name in a module. -/
def use (path : Path) (entry : String × List Span) : String × List Span :=
  (R.rename path entry.1, entry.2.map (R.move path))

/-- The relabelled table of a module. -/
def table (path : Path) (t : SymbolTable) : SymbolTable :=
  { owner := t.owner
    declared := t.declared.map (R.declared path)
    imported := t.imported.map (R.imported path)
    uses := t.uses.map (R.use path) }

/-- A relabelled module. -/
def module (m : Module) : Module :=
  ⟨m.path, R.rewrite m.path m.source, R.table m.path m.table⟩

theorem names_table (path : Path) (t : SymbolTable) :
    (R.table path t).names = t.names.map (R.rename path) := by
  simp [SymbolTable.names, table, Function.comp_def, declared, imported]

theorem originIn_symbol (path : Path) (s : Symbol) :
    (R.symbol path s).originIn path = R.origin (s.originIn path) := by
  cases s <;> rfl

/-- Where the new names are different from each other, a new name is bound to what
the old name is bound to. -/
theorem lookup_table {path : Path} {t : SymbolTable} (hnodup : (R.table path t).names.Nodup)
    {name : String} {s : Symbol} (h : t.lookup name = some s) :
    (R.table path t).lookup (R.rename path name) = some (R.symbol path s) := by
  obtain ⟨rfl, ⟨d, hd, rfl⟩ | ⟨i, hi, rfl⟩⟩ := SymbolTable.lookup_eq_some h
  · exact SymbolTable.lookup_declared hnodup (List.mem_map_of_mem hd)
  · exact SymbolTable.lookup_imported hnodup (List.mem_map_of_mem hi)

/-- Recording a use commutes with relabelling when neither the name nor the span
becomes that of another entry. -/
theorem map_addUse {path : Path} {name : String} {span : Span} {uses : List (String × List Span)}
    (hname : ∀ entry ∈ uses, R.rename path entry.1 = R.rename path name → entry.1 = name)
    (hspan : ∀ entry ∈ uses, ∀ s ∈ entry.2, R.move path s = R.move path span → s = span) :
    (addUse name span uses).map (R.use path) =
      addUse (R.rename path name) (R.move path span) (uses.map (R.use path)) := by
  induction uses with
  | nil => rfl
  | cons entry uses ih =>
    obtain ⟨key, spans⟩ := entry
    obtain ⟨hkey, hname⟩ := List.forall_mem_cons.1 hname
    obtain ⟨hspans, hspan⟩ := List.forall_mem_cons.1 hspan
    simp only [List.map_cons, addUse, use]
    by_cases h : key = name
    · subst h
      have hcontains : (spans.map (R.move path)).contains (R.move path span) =
          spans.contains span := by
        rw [Bool.eq_iff_iff, List.contains_iff_mem, List.contains_iff_mem, List.mem_map]
        refine ⟨?_, fun hmem => ⟨span, hmem, rfl⟩⟩
        rintro ⟨s, hs, heq⟩
        rwa [← hspans s hs heq]
      simp only [if_true, List.map_cons, hcontains]
      split <;> simp [use]
    · rw [if_neg h, if_neg fun heq => h (hkey heq), List.map_cons, ih hname hspan]
      rfl

/-- Other identifiers fit a relabelling of a module with its dependencies: the names
that it binds and uses get its own new names, the names that it imports those of
the modules they are from, and neither names nor places become the same. -/
structure Fits (g : Identifier → Identifier) (path : Path) (outline : Outline)
    (dependencies : List Module) : Prop where
  span : ∀ i, (g i).span = R.move path i.span
  identifier : ∀ i ∈ outline.identifiers, (g i).text = R.rename path i.text
  taken : ∀ taken ∈ takenItems (outline.imports.zip dependencies),
    (g taken.2.name).text = R.rename taken.1.path taken.2.name.text
  names_apart : ∀ i ∈ outline.identifiers, ∀ j ∈ outline.identifiers,
    R.rename path i.text = R.rename path j.text → i.text = j.text
  spans_apart : ∀ i ∈ outline.identifiers, ∀ j ∈ outline.identifiers,
    R.move path i.span = R.move path j.span → i.span = j.span

end Relabelling

/-- The recorded uses are of some identifiers. -/
def UsesAmong (ids : List Identifier) (uses : List (String × List Span)) : Prop :=
  ∀ entry ∈ uses, (∃ i ∈ ids, i.text = entry.1) ∧ ∀ s ∈ entry.2, ∃ i ∈ ids, i.span = s

theorem UsesAmong.addUse {ids : List Identifier} {uses : List (String × List Span)}
    (h : UsesAmong ids uses) {i : Identifier} (hi : i ∈ ids) :
    UsesAmong ids (addUse i.text i.span uses) := by
  induction uses with
  | nil =>
    intro entry hentry
    obtain rfl := List.mem_singleton.1 hentry
    exact ⟨⟨i, hi, rfl⟩, fun s hs => ⟨i, hi, (List.mem_singleton.1 hs).symm⟩⟩
  | cons first uses ih =>
    obtain ⟨key, spans⟩ := first
    obtain ⟨hfirst, hothers⟩ := List.forall_mem_cons.1 h
    simp only [SymbolAtlas.addUse]
    split
    · refine List.forall_mem_cons.2 ⟨⟨hfirst.1, fun s hs => ?_⟩, hothers⟩
      split at hs
      · exact hfirst.2 s hs
      · rcases List.mem_append.1 hs with hs | hs
        · exact hfirst.2 s hs
        · exact ⟨i, hi, (List.mem_singleton.1 hs).symm⟩
    · exact List.forall_mem_cons.2 ⟨hfirst, ih hothers⟩

/-- The bound names are among those of some identifiers. -/
def NamesAmong (ids : List Identifier) (t : SymbolTable) : Prop :=
  ∀ name ∈ t.names, ∃ i ∈ ids, i.text = name

section Linking

variable {R : Relabelling} {g : Identifier → Identifier} {path : Path} {dependencies : List Module}

/-- Recording a use commutes with relabelling. -/
theorem Relabelling.Fits.recordBound {outline : Outline} (h : R.Fits g path outline dependencies)
    {t : SymbolTable} (hnames : NamesAmong outline.identifiers t)
    (huses : UsesAmong outline.identifiers t.uses) {i : Identifier} (hi : i ∈ outline.identifiers) :
    (R.table path t).recordBound (g i) = R.table path (t.recordBound i) := by
  have hbound : (R.table path t).contains (g i).text = t.contains i.text := by
    rw [Bool.eq_iff_iff, SymbolTable.contains_iff, SymbolTable.contains_iff, R.names_table,
      List.mem_map, h.identifier i hi]
    refine ⟨?_, fun hmem => ⟨i.text, hmem, rfl⟩⟩
    rintro ⟨name, hname, heq⟩
    obtain ⟨j, hj, rfl⟩ := hnames name hname
    rwa [← h.names_apart j hj i hi heq]
  have hrecord : (addUse i.text i.span t.uses).map (R.use path) =
      addUse (R.rename path i.text) (R.move path i.span) (t.uses.map (R.use path)) := by
    refine R.map_addUse (fun entry hentry heq => ?_) (fun entry hentry s hs heq => ?_)
    · obtain ⟨⟨j, hj, hkey⟩, -⟩ := huses entry hentry
      rw [← hkey] at heq ⊢
      exact h.names_apart j hj i hi heq
    · obtain ⟨j, hj, rfl⟩ := (huses entry hentry).2 s hs
      exact h.spans_apart j hj i hi heq
  unfold SymbolTable.recordBound
  rw [hbound]
  split
  · simp only [SymbolTable.recordUse, Relabelling.table, h.identifier i hi, h.span, hrecord]
  · rfl

/-- Recording uses commutes with relabelling. -/
theorem Relabelling.Fits.foldl_recordBound {outline : Outline}
    (h : R.Fits g path outline dependencies) {ids : List Identifier}
    (hids : ∀ i ∈ ids, i ∈ outline.identifiers) {t : SymbolTable}
    (hnames : NamesAmong outline.identifiers t) (huses : UsesAmong outline.identifiers t.uses) :
    (ids.map g).foldl SymbolTable.recordBound (R.table path t) =
      R.table path (ids.foldl SymbolTable.recordBound t) := by
  induction ids generalizing t with
  | nil => rfl
  | cons i ids ih =>
    obtain ⟨hi, hothers⟩ := List.forall_mem_cons.1 hids
    have hnames' : NamesAmong outline.identifiers (t.recordBound i) := by
      intro name hname
      exact hnames name (by rwa [SymbolTable.names_recordBound] at hname)
    have huses' : UsesAmong outline.identifiers (t.recordBound i).uses := by
      unfold SymbolTable.recordBound
      split
      · exact huses.addUse hi
      · exact huses
    rw [List.map_cons, List.foldl_cons, List.foldl_cons, h.recordBound hnames huses hi]
    exact ih hothers hnames' huses'

/-- The names of a linked table are among those of its identifiers. -/
theorem Links.namesAmong {phrases : List Phrase} {t : SymbolTable}
    (h : Links path (outlineOf phrases) dependencies t) :
    NamesAmong (outlineOf phrases).identifiers t := by
  intro name hname
  rcases List.mem_append.1 hname with hname | hname
  · obtain ⟨s, hs, rfl⟩ := List.mem_map.1 hname
    rw [h.declared] at hs
    obtain ⟨d, hd, rfl⟩ := List.mem_map.1 hs
    exact ⟨d.name, name_mem_identifiers hd, rfl⟩
  · obtain ⟨s, hs, rfl⟩ := List.mem_map.1 hname
    obtain ⟨pair, hpair, item, hitem, symbol, -, rfl⟩ := h.exists_item hs
    exact ⟨item.binding, binding_mem_identifiers (List.of_mem_zip hpair).1 hitem, rfl⟩

theorem Binds.relabel {d : Module} {item : ImportItem} {s : ImportedSymbol} (h : Binds d item s)
    (hspan : ∀ i, (g i).span = R.move path i.span)
    (hname : (g item.name).text = R.rename d.path item.name.text)
    (hbinding : (g item.binding).text = R.rename path item.binding.text)
    (hnodup : (R.module d).table.names.Nodup) :
    Binds (R.module d) (item.map g) (R.imported path s) := by
  obtain ⟨symbol, hsymbol, rfl⟩ := h
  refine ⟨R.symbol d.path symbol, ?_, ?_⟩
  · have hlookup := R.lookup_table hnodup hsymbol
    rw [← hname] at hlookup
    exact hlookup
  · have horigin := R.originIn_symbol d.path symbol
    have halias : (item.map g).alias?.isSome = item.alias?.isSome := Option.isSome_map
    have hnameMap : (item.map g).name = g item.name := rfl
    simp only [ImportItem.importedAs, Relabelling.imported, ImportItem.binding_map, hbinding, hspan,
      hnameMap, hname, halias, Relabelling.module, horigin]

theorem takenItems_map (imports : List ImportStatement) (dependencies : List Module) :
    takenItems ((imports.map (ImportStatement.map g)).zip (dependencies.map R.module)) =
      (takenItems (imports.zip dependencies)).map (Prod.map R.module (ImportItem.map g)) := by
  rw [List.zip_map]
  simp [takenItems, List.flatMap_map, List.map_flatMap, ImportStatement.items_map,
    Function.comp_def]

theorem forall₂_map_of_mem {α β γ δ : Type} {P : α → β → Prop} {Q : γ → δ → Prop} {f : α → γ}
    {k : β → δ} {as : List α} {bs : List β} (h : List.Forall₂ P as bs)
    (hstep : ∀ a ∈ as, ∀ b, P a b → Q (f a) (k b)) :
    List.Forall₂ Q (as.map f) (bs.map k) := by
  induction h with
  | nil => exact .nil
  | cons hab _ ih =>
    obtain ⟨hfirst, hothers⟩ := List.forall_mem_cons.1 hstep
    exact .cons (hfirst _ hab) (ih hothers)

/-- A relabelled outline is linked with relabelled modules to the relabelled
table. -/
theorem Links.relabel {phrases : List Phrase} {t : SymbolTable}
    (h : Links path (outlineOf phrases) dependencies t)
    (hfits : R.Fits g path (outlineOf phrases) dependencies)
    (hnodup : ∀ d ∈ dependencies, (R.module d).table.names.Nodup) :
    Links path ((outlineOf phrases).map g) (dependencies.map R.module) (R.table path t) where
  owner := h.owner
  declared := by
    simp only [Relabelling.table, h.declared, Outline.map, List.map_map]
    refine List.map_congr_left fun d hd => ?_
    simp only [Function.comp_apply, Declaration.symbol, Declaration.map, Relabelling.declared,
      hfits.span, hfits.identifier _ (name_mem_identifiers hd)]
  imported := by
    simp only [Outline.map, Relabelling.table]
    rw [takenItems_map]
    refine forall₂_map_of_mem h.imported fun taken htaken s hs => ?_
    obtain ⟨pair, hpair, htaken'⟩ := List.mem_flatMap.1 htaken
    obtain ⟨item, hitem, rfl⟩ := List.mem_map.1 htaken'
    have hbinding := binding_mem_identifiers (List.of_mem_zip hpair).1 hitem
    exact hs.relabel hfits.span (hfits.taken _ htaken) (hfits.identifier _ hbinding)
      (hnodup _ (List.of_mem_zip hpair).2)
  nodup := by
    rw [R.names_table]
    refine h.nodup.map_on fun a ha b hb heq => ?_
    obtain ⟨i, hi, rfl⟩ := h.namesAmong a ha
    obtain ⟨j, hj, rfl⟩ := h.namesAmong b hb
    exact hfits.names_apart i hi j hj heq
  uses := by
    have hfold := hfits.foldl_recordBound (t := { t with uses := [] }) (fun _ hi => hi) h.namesAmong
      (List.forall_mem_nil _)
    have huses : (R.table path t).uses = t.uses.map (R.use path) := rfl
    rw [huses, h.uses]
    exact (congrArg SymbolTable.uses hfold).symm

end Linking

end SymbolAtlas
