import Mathlib.Data.List.Forall2
import Mathlib.Data.List.Nodup
import SymbolAtlas.Compiler.Crawl
import SymbolAtlas.Proofs.Results

/-!
# The tables that linking makes

A module is linked by entering its declarations, then the names that its imports
take from other modules, and then the places where bound names are used.  All of
this succeeds exactly when the names are different from each other and every
imported name is bound where it is taken from, and the table is then determined
by the outline and the imported modules.

## Main Definitions

* `Declaration.symbol`, `Binds`: what declarations and import items bind.
* `Outline.boundNames`: the names that an outline binds.
* `Links`: a table is the one of a module with a given outline and given
  dependencies.

## Main Statements

* `declareAll_eq_ok_iff`, `bindAll_eq_ok_iff`: when names can be bound.
* `Links.unique`: at most one table is linked.
* `exists_links`: when a table can be linked.
* `Links.usesOf_eq`: the uses of a bound name are its identifiers.
-/

namespace SymbolAtlas

/-- The symbol that a declaration declares. -/
def Declaration.symbol (d : Declaration) : DeclaredSymbol := ⟨d.name.text, d.kind, d.name.span⟩

/-- The symbol that an item binds when its name is taken from a module in which
it is bound to `symbol`. -/
def ImportItem.importedAs (item : ImportItem) (dependency : Module) (symbol : Symbol) :
    ImportedSymbol :=
  { name := item.binding.text
    span := item.binding.span
    source := ⟨dependency.path, item.name.text, item.name.span⟩
    origin := symbol.originIn dependency.path
    aliased := item.alias?.isSome }

/-- An item that is taken from a module binds a symbol. -/
def Binds (dependency : Module) (item : ImportItem) (s : ImportedSymbol) : Prop :=
  ∃ symbol, dependency.table.lookup item.name.text = some symbol ∧
    s = item.importedAs dependency symbol

theorem Binds.unique {dependency : Module} {item : ImportItem} {s s' : ImportedSymbol}
    (h : Binds dependency item s) (h' : Binds dependency item s') : s = s' := by
  obtain ⟨symbol, hsymbol, rfl⟩ := h
  obtain ⟨symbol', hsymbol', rfl⟩ := h'
  rw [Option.some.inj (hsymbol.symm.trans hsymbol')]

/-- What is related to a list has for each of its elements one in the list. -/
theorem exists_left_of_forall₂ {α β : Type} {R : α → β → Prop} {as : List α} {bs : List β}
    (h : List.Forall₂ R as bs) {b : β} (hb : b ∈ bs) : ∃ a ∈ as, R a b := by
  induction h with
  | nil => cases hb
  | cons hab _ ih =>
    rcases List.mem_cons.1 hb with rfl | hb
    · exact ⟨_, List.mem_cons_self, hab⟩
    · obtain ⟨a, ha, hab⟩ := ih hb
      exact ⟨a, List.mem_cons_of_mem _ ha, hab⟩

theorem exists_right_of_forall₂ {α β : Type} {R : α → β → Prop} {as : List α} {bs : List β}
    (h : List.Forall₂ R as bs) {a : α} (ha : a ∈ as) : ∃ b ∈ bs, R a b :=
  exists_left_of_forall₂ (R := flip R) h.flip ha

/-- A list is related to another when each of its elements is related to something. -/
theorem exists_forall₂ {α β : Type} {R : α → β → Prop} {as : List α}
    (h : ∀ a ∈ as, ∃ b, R a b) : ∃ bs, List.Forall₂ R as bs := by
  induction as with
  | nil => exact ⟨[], .nil⟩
  | cons a as ih =>
    obtain ⟨⟨b, hb⟩, hothers⟩ := List.forall_mem_cons.1 h
    obtain ⟨bs, hbs⟩ := ih hothers
    exact ⟨b :: bs, .cons hb hbs⟩

/-- When keys are different, an element is found under its key. -/
theorem find?_of_nodup {α : Type} (key : α → String) {l : List α} (h : (l.map key).Nodup) {a : α}
    (ha : a ∈ l) : l.find? (key · = key a) = some a := by
  cases hfound : l.find? (key · = key a) with
  | none =>
    have hnone : ¬ key a = key a := by simpa using List.find?_eq_none.1 hfound a ha
    exact absurd rfl hnone
  | some b =>
    have hkey : key b = key a := by simpa using List.find?_some hfound
    rw [List.inj_on_of_nodup_map h (List.mem_of_find?_eq_some hfound) ha hkey]

/-- The names that a module with this outline binds, declared ones first. -/
def Outline.boundNames (o : Outline) : List String :=
  o.declarations.map (·.name.text) ++ (o.imports.flatMap ImportStatement.items).map (·.binding.text)

namespace SymbolTable

/-- The bound names, declared ones first. -/
def names (t : SymbolTable) : List String := t.declared.map (·.name) ++ t.imported.map (·.name)

theorem lookup_eq_none_iff {t : SymbolTable} {name : String} :
    t.lookup name = none ↔ name ∉ t.names := by
  simp only [lookup, names, List.mem_append, List.mem_map, not_or]
  cases hdeclared : t.declared? name with
  | some symbol =>
    have hmem := List.mem_of_find?_eq_some hdeclared
    have hname : symbol.name = name := by simpa using List.find?_some hdeclared
    simp only [reduceCtorEq, false_iff, not_and]
    exact fun hnone => absurd ⟨symbol, hmem, hname⟩ hnone
  | none =>
    have hnone : ∀ symbol ∈ t.declared, symbol.name ≠ name := by
      simpa [declared?] using hdeclared
    simp only [Option.map_eq_none_iff, imported?, List.find?_eq_none, decide_eq_true_eq]
    grind

theorem contains_iff {t : SymbolTable} {name : String} :
    t.contains name = true ↔ name ∈ t.names := by
  simp [contains, names]

theorem isSome_lookup_iff {t : SymbolTable} {name : String} :
    (t.lookup name).isSome ↔ name ∈ t.names := by
  rw [Option.isSome_iff_ne_none, ne_eq, lookup_eq_none_iff, not_not]

/-- In a table in which each name is bound once, a declared symbol is what its
name is bound to. -/
theorem lookup_declared {t : SymbolTable} (h : t.names.Nodup) {s : DeclaredSymbol}
    (hs : s ∈ t.declared) : t.lookup s.name = some (.declared s) := by
  have hfind : t.declared? s.name = some s := find?_of_nodup _ (List.nodup_append.1 h).1 hs
  simp [lookup, hfind]

/-- In a table in which each name is bound once, an imported symbol is what its
name is bound to. -/
theorem lookup_imported {t : SymbolTable} (h : t.names.Nodup) {s : ImportedSymbol}
    (hs : s ∈ t.imported) : t.lookup s.name = some (.imported s) := by
  obtain ⟨-, hnodup, hdisjoint⟩ := List.nodup_append.1 h
  have hdeclared : t.declared? s.name = none := by
    refine List.find?_eq_none.2 fun d hd => ?_
    simpa using hdisjoint d.name (List.mem_map_of_mem hd) s.name (List.mem_map_of_mem hs)
  have hfind : t.imported? s.name = some s := find?_of_nodup _ hnodup hs
  simp [lookup, hdeclared, hfind]

theorem lookup_eq_some {t : SymbolTable} {name : String} {symbol : Symbol}
    (h : t.lookup name = some symbol) : symbol.name = name ∧
      ((∃ s ∈ t.declared, symbol = .declared s) ∨ ∃ s ∈ t.imported, symbol = .imported s) := by
  unfold lookup at h
  split at h
  · next s hs =>
    obtain rfl := Option.some.inj h
    exact ⟨by simpa [Symbol.name] using List.find?_some hs,
      .inl ⟨s, List.mem_of_find?_eq_some hs, rfl⟩⟩
  · obtain ⟨s, hs, rfl⟩ := Option.map_eq_some_iff.1 h
    exact ⟨by simpa [Symbol.name] using List.find?_some hs,
      .inr ⟨s, List.mem_of_find?_eq_some hs, rfl⟩⟩

/-! ## Binding names -/

theorem declare_eq_ok_iff {t t' : SymbolTable} {s : DeclaredSymbol} :
    t.declare s = .ok t' ↔
      s.name ∉ t.names ∧ t' = { t with declared := t.declared ++ [s] } := by
  unfold declare
  rw [← lookup_eq_none_iff, lookup]
  cases t.imported? s.name with
  | some existing => cases t.declared? s.name <;> simp
  | none => cases t.declared? s.name <;> simp [eq_comm]

theorem bindImport_eq_ok_iff {t t' : SymbolTable} {s : ImportedSymbol} :
    t.bindImport s = .ok t' ↔
      s.name ∉ t.names ∧ t' = { t with imported := t.imported ++ [s] } := by
  unfold bindImport
  rw [← lookup_eq_none_iff]
  cases t.lookup s.name with
  | none => simp [eq_comm]
  | some existing => simp

@[simp] theorem names_empty (owner : Path) : (empty owner).names = [] := rfl

/-- The table with further declared symbols. -/
def addDeclared (t : SymbolTable) (more : List DeclaredSymbol) : SymbolTable :=
  { t with declared := t.declared ++ more }

/-- The table with further imported symbols. -/
def addImported (t : SymbolTable) (more : List ImportedSymbol) : SymbolTable :=
  { t with imported := t.imported ++ more }

theorem mem_names_addDeclared {t : SymbolTable} {more : List DeclaredSymbol} {name : String} :
    name ∈ (t.addDeclared more).names ↔ name ∈ t.names ∨ name ∈ more.map (·.name) := by
  simp only [addDeclared, names, List.map_append, List.mem_append]
  grind

theorem mem_names_addImported {t : SymbolTable} {more : List ImportedSymbol} {name : String} :
    name ∈ (t.addImported more).names ↔ name ∈ t.names ∨ name ∈ more.map (·.name) := by
  simp only [addImported, names, List.map_append, List.mem_append]
  grind

end SymbolTable

/-- Symbols are entered one after the other, each with a name that is new.  This
succeeds when all names are new and different. -/
theorem foldlM_enter_eq_ok_iff {α β : Type} {step : SymbolTable → α → Except Fault SymbolTable}
    (binds : α → β → Prop) (name : β → String) (enter : SymbolTable → List β → SymbolTable)
    (hstep : ∀ {t t' a}, step t a = .ok t' ↔ ∃ b, binds a b ∧ name b ∉ t.names ∧ t' = enter t [b])
    (hnil : ∀ t, enter t [] = t)
    (hcons : ∀ t b bs, enter (enter t [b]) bs = enter t (b :: bs))
    (hnames : ∀ {t bs n}, n ∈ (enter t bs).names ↔ n ∈ t.names ∨ n ∈ bs.map name)
    {as : List α} {t t' : SymbolTable} :
    as.foldlM step t = .ok t' ↔ ∃ bs, List.Forall₂ binds as bs ∧ (bs.map name).Nodup ∧
      (∀ b ∈ bs, name b ∉ t.names) ∧ t' = enter t bs := by
  induction as generalizing t with
  | nil =>
    constructor
    · intro h
      exact ⟨[], .nil, .nil, nofun, by rw [hnil, Except.ok.inj h]⟩
    · rintro ⟨bs, hbs, -, -, rfl⟩
      cases hbs
      rw [hnil]
      rfl
  | cons a as ih =>
    rw [List.foldlM_cons, bind_eq_ok_iff]
    constructor
    · rintro ⟨middle, hmiddle, hrest⟩
      obtain ⟨b, hb, hnew, rfl⟩ := hstep.1 hmiddle
      obtain ⟨bs, hbs, hnodup, hothers, rfl⟩ := ih.1 hrest
      refine ⟨b :: bs, .cons hb hbs, List.nodup_cons.2 ⟨?_, hnodup⟩, ?_, hcons t b bs⟩
      · intro hmem
        obtain ⟨other, hother, heq⟩ := List.mem_map.1 hmem
        exact hothers other hother (hnames.2 (.inr (by simp [heq])))
      · exact List.forall_mem_cons.2
          ⟨hnew, fun other hother hmem => hothers other hother (hnames.2 (.inl hmem))⟩
    · rintro ⟨bs, hbs, hnodup, hnew, rfl⟩
      cases hbs with
      | @cons a b as bs hb hbs =>
        obtain ⟨hfirst, hnodup⟩ := List.nodup_cons.1 hnodup
        obtain ⟨hnew, hothers⟩ := List.forall_mem_cons.1 hnew
        refine ⟨_, hstep.2 ⟨b, hb, hnew, rfl⟩, ih.2 ⟨bs, hbs, hnodup, ?_, (hcons t b bs).symm⟩⟩
        intro other hother hmem
        rcases hnames.1 hmem with hmem | hmem
        · exact hothers other hother hmem
        · exact hfirst (List.mem_map.2 ⟨other, hother, by simpa using hmem⟩)

/-- Declarations can be entered when their names are new and different. -/
theorem declareAll_eq_ok_iff {path : Path} {declarations : List Declaration}
    {t t' : SymbolTable} :
    declareAll path declarations t = .ok t' ↔
      ((declarations.map Declaration.symbol).map (·.name)).Nodup ∧
        (∀ s ∈ declarations.map Declaration.symbol, s.name ∉ t.names) ∧
        t' = t.addDeclared (declarations.map Declaration.symbol) := by
  have hbinds : ∀ {bs : List DeclaredSymbol},
      List.Forall₂ (fun d s => d.symbol = s) declarations bs ↔
        bs = declarations.map Declaration.symbol := by
    intro bs
    rw [← List.forall₂_map_left_iff, List.forall₂_eq_eq_eq, eq_comm]
  rw [declareAll, foldlM_enter_eq_ok_iff (fun d s => d.symbol = s) (·.name)
    SymbolTable.addDeclared _ (fun t => by simp [SymbolTable.addDeclared])
    (fun t b bs => by simp [SymbolTable.addDeclared]) SymbolTable.mem_names_addDeclared]
  · simp only [hbinds]
    grind
  · intro t t' d
    constructor
    · intro h
      split at h
      · next hdeclare =>
        obtain rfl := Except.ok.inj h
        exact ⟨d.symbol, rfl, SymbolTable.declare_eq_ok_iff.1 hdeclare⟩
      · cases h
    · rintro ⟨s, rfl, hdeclare⟩
      have hok : t.declare d.symbol = .ok t' := SymbolTable.declare_eq_ok_iff.2 hdeclare
      rw [show t.declare ⟨d.name.text, d.kind, d.name.span⟩ = .ok t' from hok]

/-- An item can be bound when its name is bound where it is taken from and the
name it is bound to is new. -/
theorem bindItem_eq_ok_iff {path : Path} {dependency : Module} {item : ImportItem}
    {t t' : SymbolTable} :
    bindItem path dependency t item = .ok t' ↔
      ∃ s, Binds dependency item s ∧ s.name ∉ t.names ∧ t' = t.addImported [s] := by
  unfold bindItem Binds
  cases hlookup : dependency.table.lookup item.name.text with
  | none => simp
  | some symbol =>
    constructor
    · intro h
      dsimp only at h
      split at h
      · next hbind =>
        obtain rfl := Except.ok.inj h
        exact ⟨_, ⟨symbol, rfl, rfl⟩, SymbolTable.bindImport_eq_ok_iff.1 hbind⟩
      · cases h
    · rintro ⟨s, ⟨symbol', hsymbol, rfl⟩, hbind⟩
      obtain rfl := Option.some.inj hsymbol
      have hok : t.bindImport (item.importedAs dependency symbol) = .ok t' :=
        SymbolTable.bindImport_eq_ok_iff.2 hbind
      rw [ImportItem.importedAs] at hok
      simp only [hok]

/-- The items that import statements take from modules, one by one. -/
def takenItems (pairs : List (ImportStatement × Module)) : List (Module × ImportItem) :=
  pairs.flatMap fun pair => pair.1.items.map (pair.2, ·)

theorem mem_of_mem_takenItems {pairs : List (ImportStatement × Module)}
    {taken : Module × ImportItem} (h : taken ∈ takenItems pairs) :
    ∃ pair ∈ pairs, pair.2 = taken.1 ∧ taken.2 ∈ pair.1.items := by
  obtain ⟨pair, hpair, htaken⟩ := List.mem_flatMap.1 h
  obtain ⟨item, hitem, rfl⟩ := List.mem_map.1 htaken
  exact ⟨pair, hpair, rfl, hitem⟩

theorem map_snd_takenItems {statements : List ImportStatement} {ds : List Module}
    (h : statements.length = ds.length) :
    (takenItems (statements.zip ds)).map (·.2) = statements.flatMap ImportStatement.items := by
  have hitems : (takenItems (statements.zip ds)).map (·.2) =
      (statements.zip ds).flatMap fun pair => pair.1.items := by
    rw [takenItems, List.map_flatMap]
    simp only [List.map_map, Function.comp_def, List.map_id']
  rw [hitems, ← List.flatMap_map, List.map_fst_zip (Nat.le_of_eq h)]

/-- Statements can be bound when all their items can. -/
theorem bindAll_eq_ok_iff {path : Path} {pairs : List (ImportStatement × Module)}
    {t t' : SymbolTable} :
    pairs.foldlM (fun t pair => bindItems path pair.2 pair.1.items t) t = .ok t' ↔
      ∃ bound, List.Forall₂ (fun taken s => Binds taken.1 taken.2 s) (takenItems pairs) bound ∧
        (bound.map (·.name)).Nodup ∧ (∀ s ∈ bound, s.name ∉ t.names) ∧
        t' = t.addImported bound := by
  have hflat : pairs.foldlM (fun t pair => bindItems path pair.2 pair.1.items t) t =
      (takenItems pairs).foldlM (fun t taken => bindItem path taken.1 t taken.2) t := by
    induction pairs generalizing t with
    | nil => rfl
    | cons pair pairs ih =>
      have hsplit : takenItems (pair :: pairs) =
          pair.1.items.map (pair.2, ·) ++ takenItems pairs := rfl
      rw [hsplit, List.foldlM_append, List.foldlM_map, List.foldlM_cons]
      refine bind_congr fun t => ih
  rw [hflat]
  exact foldlM_enter_eq_ok_iff (fun (taken : Module × ImportItem) s => Binds taken.1 taken.2 s)
    (·.name)
    SymbolTable.addImported bindItem_eq_ok_iff (fun t => by simp [SymbolTable.addImported])
    (fun t b bs => by simp [SymbolTable.addImported]) SymbolTable.mem_names_addImported

/-! ## Recording uses -/

theorem lookup_addUse (name other : String) (span : Span) (uses : List (String × List Span)) :
    ((addUse name span uses).lookup other).getD [] =
      if other = name ∧ span ∉ (uses.lookup name).getD [] then (uses.lookup name).getD [] ++ [span]
      else (uses.lookup other).getD [] := by
  induction uses with
  | nil =>
    by_cases h : other = name
    · simp [addUse, h]
    · simp [addUse, h, List.lookup_cons, beq_false_of_ne h]
  | cons entry uses ih =>
    obtain ⟨key, spans⟩ := entry
    by_cases hkey : key = name
    · subst hkey
      by_cases hother : other = key
      · subst hother
        by_cases hspan : span ∈ spans <;> simp [addUse, hspan]
      · simp [addUse, List.lookup_cons, beq_false_of_ne hother, hother]
    · have hname : name ≠ key := Ne.symm hkey
      rw [addUse, if_neg hkey]
      by_cases hother : other = key
      · subst hother
        simp [hkey]
      · simpa [List.lookup_cons, beq_false_of_ne hother, beq_false_of_ne hname] using ih

namespace SymbolTable

@[simp] theorem names_recordBound (t : SymbolTable) (i : Identifier) :
    (t.recordBound i).names = t.names := by
  unfold recordBound
  split <;> rfl

theorem usesOf_recordBound {t : SymbolTable} {i : Identifier} {name : String} :
    (t.recordBound i).usesOf name =
      if name = i.text ∧ name ∈ t.names ∧ i.span ∉ t.usesOf name then t.usesOf name ++ [i.span]
      else t.usesOf name := by
  unfold recordBound
  by_cases hbound : i.text ∈ t.names
  · rw [if_pos (contains_iff.2 hbound), usesOf, recordUse, lookup_addUse]
    unfold usesOf
    grind
  · rw [if_neg (mt contains_iff.1 hbound)]
    grind

/-- Recording identifiers at different places adds to each bound name the places
where it stands. -/
theorem usesOf_foldl_recordBound {ids : List Identifier} {t : SymbolTable} {name : String}
    (hnodup : (ids.map (·.span)).Nodup) (hnew : ∀ i ∈ ids, i.span ∉ t.usesOf name) :
    (ids.foldl recordBound t).usesOf name =
      t.usesOf name ++
        if name ∈ t.names then (ids.filter (·.text = name)).map (·.span) else [] := by
  induction ids generalizing t with
  | nil => simp
  | cons i ids ih =>
    obtain ⟨hfirst, hnodup⟩ := List.nodup_cons.1 hnodup
    obtain ⟨hi, hothers⟩ := List.forall_mem_cons.1 hnew
    have hnext : ∀ other ∈ ids, other.span ∉ (t.recordBound i).usesOf name := by
      intro other hother hmem
      rw [usesOf_recordBound] at hmem
      split at hmem
      · rcases List.mem_append.1 hmem with hmem | hmem
        · exact hothers other hother hmem
        · exact hfirst (List.mem_map.2 ⟨other, hother, List.mem_singleton.1 hmem⟩)
      · exact hothers other hother hmem
    rw [List.foldl_cons, ih hnodup hnext, names_recordBound, usesOf_recordBound]
    by_cases hbound : name ∈ t.names
    · by_cases htext : i.text = name
      · simp [hbound, htext, hi]
      · simp [hbound, htext, Ne.symm htext]
    · simp [hbound]

theorem foldl_recordBound_eq (ids : List Identifier) (t : SymbolTable) :
    ids.foldl recordBound t = { t with uses := (ids.foldl recordBound t).uses } := by
  induction ids generalizing t with
  | nil => rfl
  | cons i ids ih =>
    rw [List.foldl_cons, ih (t.recordBound i)]
    unfold recordBound
    split <;> rfl

end SymbolTable

/-! ## Tables of modules -/

/-- A table is the one of a module with a given path and outline, whose imports
are taken from the given modules. -/
structure Links (path : Path) (outline : Outline) (dependencies : List Module) (t : SymbolTable) :
    Prop where
  owner : t.owner = path
  declared : t.declared = outline.declarations.map Declaration.symbol
  imported : List.Forall₂ (fun taken s => Binds taken.1 taken.2 s)
    (takenItems (outline.imports.zip dependencies)) t.imported
  nodup : t.names.Nodup
  uses : t.uses =
    (outline.identifiers.foldl SymbolTable.recordBound { t with uses := [] }).uses

/-- A module is linked by entering its declarations, then its imports and then
the uses of names. -/
theorem links_iff {path : Path} {outline : Outline} {dependencies : List Module}
    {t : SymbolTable} :
    Links path outline dependencies t ↔ ∃ t₁ t₂,
      declareAll path outline.declarations (.empty path) = .ok t₁ ∧
      (outline.imports.zip dependencies).foldlM
        (fun t pair => bindItems path pair.2 pair.1.items t) t₁ = .ok t₂ ∧
      t = outline.identifiers.foldl SymbolTable.recordBound t₂ := by
  simp only [declareAll_eq_ok_iff, bindAll_eq_ok_iff]
  constructor
  · rintro ⟨howner, hdeclared, himported, hnodup, huses⟩
    obtain ⟨hdeclaredNodup, himportedNodup, hdisjoint⟩ := List.nodup_append.1 hnodup
    rw [hdeclared] at hdeclaredNodup
    refine ⟨_, _, ⟨hdeclaredNodup, by simp, rfl⟩,
      ⟨t.imported, himported, himportedNodup, ?_, rfl⟩, ?_⟩
    · intro s hs
      rw [SymbolTable.mem_names_addDeclared, not_or]
      refine ⟨by simp, fun hmem => ?_⟩
      rw [← hdeclared] at hmem
      exact hdisjoint s.name hmem s.name (List.mem_map_of_mem hs) rfl
    · have hbase : ((SymbolTable.empty path).addDeclared
          (outline.declarations.map Declaration.symbol)).addImported t.imported =
          { t with uses := [] } := by
        rw [← hdeclared, ← howner]
        rfl
      rw [hbase, SymbolTable.foldl_recordBound_eq, ← huses]
  · rintro ⟨t₁, t₂, ⟨hdeclared, -, rfl⟩, ⟨bound, hbound, hnodup, hnew, rfl⟩, rfl⟩
    have hnames : (((SymbolTable.empty path).addDeclared
        (outline.declarations.map Declaration.symbol)).addImported bound).names.Nodup := by
      refine List.nodup_append.2 ⟨hdeclared, hnodup, ?_⟩
      rintro name hname other hother rfl
      obtain ⟨s, hs, rfl⟩ := List.mem_map.1 hother
      exact hnew s hs (SymbolTable.mem_names_addDeclared.2 (.inr hname))
    rw [SymbolTable.foldl_recordBound_eq]
    exact ⟨rfl, rfl, hbound, hnames, rfl⟩

namespace Links

variable {path : Path} {outline : Outline} {dependencies : List Module} {t : SymbolTable}

/-- At most one table is linked. -/
theorem unique {t' : SymbolTable} (h : Links path outline dependencies t)
    (h' : Links path outline dependencies t') : t = t' := by
  have himported : t.imported = t'.imported := by
    refine List.right_unique_forall₂' ?_ h.imported h'.imported
    intro taken s s' hs hs'
    exact Binds.unique hs hs'
  have hbase : { t with uses := [] } = { t' with uses := [] } := by
    rw [h.owner, h.declared, himported, ← h'.owner, ← h'.declared]
  calc t = { { t with uses := [] } with uses := t.uses } := rfl
    _ = { { t' with uses := [] } with uses := t'.uses } := by rw [h.uses, h'.uses, hbase]
    _ = t' := rfl

/-- The uses of a bound name are the identifiers that spell it, and a name that
is not bound has none. -/
theorem usesOf_eq (h : Links path outline dependencies t)
    (hnodup : (outline.identifiers.map (·.span)).Nodup) (name : String) :
    t.usesOf name =
      if name ∈ t.names then (outline.identifiers.filter (·.text = name)).map (·.span) else [] := by
  have huses : t.usesOf name =
      (outline.identifiers.foldl SymbolTable.recordBound { t with uses := [] }).usesOf name := by
    rw [SymbolTable.usesOf, h.uses, ← SymbolTable.usesOf]
  rw [huses, SymbolTable.usesOf_foldl_recordBound hnodup (by simp [SymbolTable.usesOf])]
  rfl

/-- A place is a use of a name when the name is bound and its identifier stands
there. -/
theorem mem_usesOf_iff (h : Links path outline dependencies t)
    (hnodup : (outline.identifiers.map (·.span)).Nodup) {name : String} {span : Span} :
    span ∈ t.usesOf name ↔
      name ∈ t.names ∧ (⟨name, span⟩ : Identifier) ∈ outline.identifiers := by
  rw [h.usesOf_eq hnodup]
  by_cases hbound : name ∈ t.names
  · rw [if_pos hbound, and_iff_right hbound]
    simp only [List.mem_map, List.mem_filter, decide_eq_true_eq]
    constructor
    · rintro ⟨i, ⟨hi, rfl⟩, rfl⟩
      exact hi
    · exact fun hi => ⟨_, ⟨hi, rfl⟩, rfl⟩
  · simp [hbound]

/-- Each imported symbol is bound by an item of an import statement. -/
theorem exists_item (h : Links path outline dependencies t) {s : ImportedSymbol}
    (hs : s ∈ t.imported) :
    ∃ pair ∈ outline.imports.zip dependencies, ∃ item ∈ pair.1.items, Binds pair.2 item s := by
  obtain ⟨taken, htaken, hbinds⟩ := exists_left_of_forall₂ h.imported hs
  obtain ⟨pair, hpair, hdependency, hitem⟩ := mem_of_mem_takenItems htaken
  exact ⟨pair, hpair, taken.2, hitem, hdependency ▸ hbinds⟩

end Links

/-- The identifier that binds an imported symbol. -/
def ImportedSymbol.identifier (s : ImportedSymbol) : Identifier := ⟨s.name, s.span⟩

theorem map_identifier_of_binds {taken : List (Module × ImportItem)}
    {bound : List ImportedSymbol}
    (h : List.Forall₂ (fun taken s => Binds taken.1 taken.2 s) taken bound) :
    bound.map (·.identifier) = (taken.map (·.2)).map (·.binding) := by
  induction h with
  | nil => rfl
  | cons hbinds _ ih =>
    obtain ⟨symbol, -, rfl⟩ := hbinds
    rw [List.map_cons, ih]
    rfl

theorem map_name_of_binds {taken : List (Module × ImportItem)} {bound : List ImportedSymbol}
    (h : List.Forall₂ (fun taken s => Binds taken.1 taken.2 s) taken bound) :
    bound.map (·.name) = (taken.map (·.2)).map (·.binding.text) := by
  have hidentifiers := congrArg (List.map Identifier.text) (map_identifier_of_binds h)
  rwa [List.map_map, List.map_map] at hidentifiers

/-- The names that a table binds are the ones that the outline declares and imports. -/
theorem names_eq_boundNames {outline : Outline} {dependencies : List Module} {t : SymbolTable}
    (hdeclared : t.declared = outline.declarations.map Declaration.symbol)
    (himported : List.Forall₂ (fun taken s => Binds taken.1 taken.2 s)
      (takenItems (outline.imports.zip dependencies)) t.imported)
    (hlength : outline.imports.length = dependencies.length) : t.names = outline.boundNames := by
  rw [SymbolTable.names, Outline.boundNames, hdeclared, map_name_of_binds himported,
    map_snd_takenItems hlength, List.map_map]
  rfl

/-- A table can be linked when the names of the outline are different from each other
and the imported ones are bound where they are taken from. -/
theorem exists_links (path : Path) {outline : Outline} {dependencies : List Module}
    (hlength : outline.imports.length = dependencies.length) (hnodup : outline.boundNames.Nodup)
    (hbound : ∀ taken ∈ takenItems (outline.imports.zip dependencies),
      taken.2.name.text ∈ taken.1.table.names) : ∃ t, Links path outline dependencies t := by
  have hbinds : ∀ taken ∈ takenItems (outline.imports.zip dependencies),
      ∃ s, Binds taken.1 taken.2 s := by
    intro taken htaken
    obtain ⟨symbol, hsymbol⟩ :=
      Option.isSome_iff_exists.1 (SymbolTable.isSome_lookup_iff.2 (hbound taken htaken))
    exact ⟨_, symbol, hsymbol, rfl⟩
  obtain ⟨imported, himported⟩ := exists_forall₂ hbinds
  let bare : SymbolTable := ⟨path, outline.declarations.map Declaration.symbol, imported, []⟩
  have hnames : bare.names = outline.boundNames := names_eq_boundNames rfl himported hlength
  exact ⟨{ bare with uses := (outline.identifiers.foldl SymbolTable.recordBound bare).uses },
    rfl, rfl, himported, hnames ▸ hnodup, rfl⟩

end SymbolAtlas
