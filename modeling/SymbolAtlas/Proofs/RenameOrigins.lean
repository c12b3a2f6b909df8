import SymbolAtlas.Proofs.Agreement
import SymbolAtlas.Proofs.RenameReferences
import SymbolAtlas.Proofs.RenameSymmetry
import SymbolAtlas.Request.Definition

/-!
# A rename stays with one declaration

Planning a rename tests the origin of one symbol and the module of one binding
against the root.  This is enough for all edits: along climbs and spreads the origin
stays what it is, so each place that a plan edits belongs to the declaration behind
the symbol that the rename was asked for.  That is also the declaration that is found
as its definition.  The plan edits it when the climb ends there; when the climb ends
at an alias, what is renamed depends on the module of the declaration, and since
modules do not depend on themselves the plan has nothing to edit in it.

## Main Definitions

* `PlannedFor`: how a plan with edits was made.
* `BelongsTo`: a place in a module belongs to a declaration.
* `DefinitionAgrees`: what a definition has to do with a plan for the same name.

## Main Statements

* `exists_plannedFor`, `exists_plannedFor_of_planRename`: all plans with edits are made
  like this.
* `planRenameSymbol_spares_foreign`: all edits belong to one declaration beneath the
  root.
* `findDefinition_of_planRename`: the definition at a caret is the declaration that a
  rename there is about.
-/

namespace SymbolAtlas

variable {config : Config} {tree : FileTree} {file root : Path} {name : String}

/-! ## How plans are made -/

/-- A declaration is its own owner. -/
theorem PlannedFrom.owner_of_declared {plan : RenamePlan} {start : Module} {modules : List Module}
    {owner : Binding}
    (h : PlannedFrom config tree file name root plan start modules owner)
    (hlinked : IndexesLinked config tree (.ofModules (modules ++ [start]))) {s : DeclaredSymbol}
    (hsymbol : start.table.lookup name = some (.declared s)) : owner = ⟨start.path, name⟩ := by
  rcases (ImportIndex.climbsTo_of_climb h.climb).cases_head with heq | ⟨next, hstep, -⟩
  · exact heq.symm
  · obtain ⟨m, s', hm, hlookup, -⟩ := ImportIndex.climbsTo_iff.1 hstep
    obtain rfl := hlinked.eq_of_module? h.grounded_start hm
    rw [hsymbol] at hlookup
    cases hlookup

/-- The modules of a workspace and the module of a request make up a linked index. -/
theorem indexesLinked_ofModules {w : Workspace} {start : Module} {modules : List Module}
    (hscan : Workspace.scan tree config.extension root = .ok w)
    (hmodules : ∀ m ∈ modules, ∃ p ∈ w.modulePaths, config.compileModule tree p none = .ok m)
    (hstart : config.compileModule tree file none = .ok start) :
    IndexesLinked config tree (.ofModules (modules ++ [start])) where
  consistent := ImportIndex.consistent_ofModules _
  linked m hm := by
    rcases List.mem_append.1 (ImportIndex.mem_of_mem_ofModules hm) with hm | hm
    · obtain ⟨p, hp, hcompile⟩ := hmodules m hm
      exact (Workspace.compiled_of_mem_modulePaths hscan hp hcompile).2
    · rw [List.mem_singleton.1 hm]
      obtain ⟨-, hlinked, -, hdisk⟩ := linked_of_compileModule hstart
      exact ⟨hlinked, hdisk rfl⟩

/-- A plan is made for an owner beneath the root. -/
theorem contains_owner_of_completed {w : Workspace} {start : Module} {symbol : Symbol}
    {modules : List Module} {owner : Binding} {plan : RenamePlan}
    (hscan : Workspace.scan tree config.extension root = .ok w)
    (hbound : BoundWithin config tree w file name start symbol)
    (hmodules : allModules name (compileEach config tree w.modulePaths) = .ok modules)
    (hclimb : (ImportIndex.ofModules (modules ++ [start])).rootBinding ⟨start.path, name⟩ =
      .ok owner)
    (hplan : (planRenameSymbol config.compiler config file name root tree).1 =
      .ok (.completed plan)) : w.contains tree owner.module = true := by
  rw [hbound.plan_eq hscan, concludeRename, hmodules] at hplan
  simp only [hclimb] at hplan
  by_contra hout
  rw [if_neg hout] at hplan
  cases hplan

/-- How a plan was made: in the index of the modules of a workspace and the module of
the request, all of them linked, for the owner of a name that is declared beneath the
root. -/
structure PlannedFor (config : Config) (tree : FileTree) (file : Path) (name : String)
    (root : Path) (plan : RenamePlan) (w : Workspace) (start : Module) (modules : List Module)
    (owner : Binding) (symbol : Symbol) : Prop
    extends PlannedFrom config tree file name root plan start modules owner where
  scanned : Workspace.scan tree config.extension root = .ok w
  loaded : allModules name (compileEach config tree w.modulePaths) = .ok modules
  linked : IndexesLinked config tree (.ofModules (modules ++ [start]))
  lookup : start.table.lookup name = some symbol
  home : (symbol.originIn start.path).module.isBeneath (tree.canonical root) = true

theorem exists_plannedFor {plan : RenamePlan}
    (hplan : (planRenameSymbol config.compiler config file name root tree).1 =
      .ok (.completed plan))
    (hedits : plan.edits ≠ []) :
    ∃ w start modules owner symbol,
      PlannedFor config tree file name root plan w start modules owner symbol := by
  obtain ⟨w, start, modules, owner, hscan, hmodules, hfrom⟩ :=
    exists_scan_plannedFrom hplan hedits
  obtain ⟨hall, start', symbol, hbound⟩ := boundWithin_of_completed hscan hplan hedits
  obtain rfl := Except.ok.inj (hfrom.compiled.symm.trans hbound.compiled)
  obtain ⟨modules', hmodules', hmem⟩ := allModules_of_compile name hall
  obtain rfl := Except.ok.inj (hmodules.symm.trans hmodules')
  have hlinked := indexesLinked_ofModules hscan (fun m => (hmem m).1) hfrom.compiled
  refine ⟨w, start, modules, owner, symbol, hfrom, hscan, hmodules, hlinked, hbound.bound, ?_⟩
  have hhome := hbound.home
  rw [Workspace.root_of_scan hscan] at hhome
  cases symbol with
  | imported s => simpa [Symbol.foreignOrigin?, Symbol.originIn] using hhome
  | declared s =>
    -- the owner is tested against the root, and a declaration is its own owner
    have hcontains := contains_owner_of_completed hscan hbound hmodules hfrom.climb hplan
    rw [hfrom.owner_of_declared hlinked hbound.bound, Workspace.contains,
      hfrom.grounded_start.onDisk.canonical, Workspace.root_of_scan hscan] at hcontains
    exact hcontains

/-- A plan with edits that is asked for at a caret is made for the word there. -/
theorem exists_plannedFor_of_planRename {line column : Nat} {plan : RenamePlan}
    (hplan : (planRename config.compiler config file line column root tree).1 =
      .ok (.completed plan))
    (hedits : plan.edits ≠ []) :
    ∃ word w start modules owner symbol, wordAt start.source line column = .ok word ∧
      word.isEmpty = false ∧
      PlannedFor config tree file word.text root plan w start modules owner symbol := by
  obtain ⟨text, word, hread, hword, hempty, hsymbol⟩ := exists_word_of_planRename hplan hedits
  obtain ⟨w, start, modules, owner, symbol, h⟩ := exists_plannedFor hsymbol hedits
  refine ⟨word, w, start, modules, owner, symbol, ?_, hempty, h⟩
  rw [source_of_compileModule h.compiled hread]
  exact hword

namespace PlannedFor

variable {plan : RenamePlan} {w : Workspace} {start : Module} {modules : List Module}
  {owner : Binding} {symbol : Symbol}
  (h : PlannedFor config tree file name root plan w start modules owner symbol)

include h

theorem originOf_start :
    OriginOf config tree ⟨start.path, name⟩ (symbol.originIn start.path) :=
  ⟨start, symbol, h.grounded_start.compiled, h.lookup, rfl⟩

/-- The owner has the name and the origin of the symbol that is renamed. -/
theorem owner_shares : owner.name = name ∧
    OriginOf config tree owner (symbol.originIn start.path) ∧
    ∃ d, Grounded config tree owner d := by
  obtain ⟨hname, horigin, d, -, howner⟩ :=
    h.linked.climb_all h.grounded_start (ImportIndex.climbsTo_of_climb h.climb)
  exact ⟨hname, horigin _ h.originOf_start, d, howner⟩

/-- What climbs to the owner has the origin of the symbol that is renamed. -/
theorem originOf_of_climb {b : Binding} {d : Module} (hb : Grounded config tree b d)
    (hclimb : Relation.ReflTransGen (ImportIndex.ofModules (modules ++ [start])).ClimbsTo b
      owner) : OriginOf config tree b (symbol.originIn start.path) := by
  obtain ⟨origin, horigin⟩ := hb.exists_originOf
  have howner := (h.linked.climb_all hb hclimb).2.1 origin horigin
  rwa [← howner.unique h.owner_shares.2.1]

/-- The climb ended at the owner, which is indexed and no unaliased import. -/
theorem owner_ends {d : Module} (howner : Grounded config tree owner d) :
    d ∈ (ImportIndex.ofModules (modules ++ [start])).modules ∧
      ∀ s, d.table.lookup owner.name = some (.imported s) → s.aliased = true := by
  have hstep := ((h.linked.rootBinding_eq_ok_iff h.grounded_start).1 h.climb).2
  obtain ⟨m, hm, haliased⟩ := ImportIndex.climbStep_eq_none_iff.1 hstep
  obtain rfl := h.linked.eq_of_module? howner hm
  exact ⟨(h.linked.consistent.module?_eq_some_iff.1 hm).1, haliased⟩

theorem places_eq :
    plan.places = ((ImportIndex.ofModules (modules ++ [start])).spread owner).pairs := by
  rw [← places_editsAt _ owner.name, ← h.edits]

/-- What a plan edits in an indexed module: uses of the name when it climbs to the
owner, and names that aliased imports take from bindings that do. -/
theorem mem_places_iff {m : Module}
    (hm : m ∈ (ImportIndex.ofModules (modules ++ [start])).modules) {span : Span} :
    (m.path, span) ∈ plan.places ↔
      (Relation.ReflTransGen (ImportIndex.ofModules (modules ++ [start])).ClimbsTo
          ⟨m.path, name⟩ owner ∧ span ∈ m.table.usesOf name) ∨
        ∃ s ∈ m.table.imported, s.aliased = true ∧ span = s.source.span ∧
          Relation.ReflTransGen (ImportIndex.ofModules (modules ++ [start])).ClimbsTo
            s.sourceBinding owner := by
  obtain ⟨hname, -, d, howner⟩ := h.owner_shares
  rw [h.places_eq, h.linked.mem_pairs_iff howner hm, h.linked.mentions_spread_iff howner hm, hname]

/-- A plan edits nothing but indexed modules. -/
theorem exists_of_mem_places {place : Path × Span} (hplace : place ∈ plan.places) :
    ∃ m ∈ (ImportIndex.ofModules (modules ++ [start])).modules, m.path = place.1 := by
  obtain ⟨-, -, d, howner⟩ := h.owner_shares
  rw [h.places_eq] at hplace
  exact h.linked.exists_of_mem_pairs howner hplace

/-- A plan edits one name. -/
theorem symbol_of_mem_edits {entry : Path × List RenameEdit} (hentry : entry ∈ plan.edits)
    {edit : RenameEdit} (hedit : edit ∈ entry.2) : edit.symbol = name := by
  rw [h.edits] at hentry
  obtain ⟨listed, -, rfl⟩ := List.mem_map.1 hentry
  obtain ⟨span, -, rfl⟩ := List.mem_map.1 hedit
  exact h.owner_shares.1

/-- A plan edits something in each module that it lists. -/
theorem exists_place_of_mem_edits {entry : Path × List RenameEdit} (hentry : entry ∈ plan.edits) :
    ∃ span, (entry.1, span) ∈ plan.places := by
  rw [h.edits] at hentry
  obtain ⟨listed, hlisted, rfl⟩ := List.mem_map.1 hentry
  obtain ⟨span, hspan⟩ :=
    List.exists_mem_of_ne_nil _ (ImportIndex.ne_nil_of_mem_spread hlisted)
  refine ⟨span, ?_⟩
  rw [h.places_eq]
  exact Locations.mem_pairs.2 ⟨listed, hlisted, rfl, hspan⟩

end PlannedFor

/-! ## All edits belong to one declaration -/

/-- A place in a module belongs to a declaration: it is a use of a name that this is the
origin of, or the name that an aliased import with this origin mentions. -/
inductive BelongsTo (m : Module) (span : Span) (origin : Origin) : Prop where
  | use {name : String} {symbol : Symbol} (bound : m.table.lookup name = some symbol)
      (used : span ∈ m.table.usesOf name) (declared : symbol.originIn m.path = origin)
  | aliased {s : ImportedSymbol} (imported : s ∈ m.table.imported) (aliased : s.aliased = true)
      (place : span = s.source.span) (declared : s.origin = origin)

/-- Each place that a plan edits belongs to the declaration behind the symbol that is
renamed. -/
theorem PlannedFor.belongsTo {plan : RenamePlan} {w : Workspace} {start : Module}
    {modules : List Module} {owner : Binding} {symbol : Symbol}
    (h : PlannedFor config tree file name root plan w start modules owner symbol) {m : Module}
    (hm : m ∈ (ImportIndex.ofModules (modules ++ [start])).modules) {span : Span}
    (hplace : (m.path, span) ∈ plan.places) : BelongsTo m span (symbol.originIn start.path) := by
  obtain ⟨hlinked, hdisk⟩ := h.linked.linked m hm
  rcases (h.mem_places_iff hm).1 hplace with ⟨hclimb, huse⟩ | ⟨s, hs, haliased, hspan, hclimb⟩
  · have hgrounded := h.linked.grounded hm (hlinked.mem_names_of_use huse)
    obtain ⟨m', symbol', hm', hsymbol', horigin⟩ := h.originOf_of_climb hgrounded hclimb
    obtain rfl := Except.ok.inj (hgrounded.compiled.symm.trans hm')
    exact .use hsymbol' huse horigin.symm
  · obtain ⟨d, -, hsource⟩ := hlinked.exists_dependency hs
    have horigin := h.originOf_of_climb hsource hclimb
    exact .aliased hs haliased hspan ((hlinked.originOf_source hs).unique horigin)

/-- All that a plan edits belongs to the declaration behind the symbol that the rename
was asked for, and this lies beneath the root. -/
theorem planRenameSymbol_spares_foreign {plan : RenamePlan}
    (hplan : (planRenameSymbol config.compiler config file name root tree).1 =
      .ok (.completed plan)) :
    ∀ place ∈ plan.places, ∃ m origin, config.compileModule tree place.1 none = .ok m ∧
      m.path = place.1 ∧ BelongsTo m place.2 origin ∧
      OriginOf config tree ⟨tree.canonical file, name⟩ origin ∧
      origin.module.isBeneath (tree.canonical root) = true := by
  intro place hplace
  have hedits : plan.edits ≠ [] := by
    intro hnil
    simp [RenamePlan.places, hnil] at hplace
  obtain ⟨w, start, modules, owner, symbol, h⟩ := exists_plannedFor hplan hedits
  obtain ⟨m, hm, hpath⟩ := h.exists_of_mem_places hplace
  obtain ⟨hlinked, hdisk⟩ := h.linked.linked m hm
  refine ⟨m, symbol.originIn start.path, ?_, hpath, h.belongsTo hm ?_, ?_, h.home⟩
  · rw [← hpath]
    exact compileModule_of_onDisk hlinked hdisk
  · rwa [hpath]
  · rw [← (linked_of_compileModule h.compiled).1]
    exact h.originOf_start

/-- Asked for outside of the root, the rename edits what belongs to the declaration
beneath it. -/
theorem planRenameSymbol_spares_foreign_outside :
    (planRenameSymbol Config.default.compiler .default ⟨"/w/out/main.ol"⟩ "Shape" ⟨"/w/ws"⟩
        outsideTree).1 = .ok (.completed outsidePlan) ∧
      ∃ m origin, Config.default.compileModule outsideTree ⟨"/w/out/main.ol"⟩ none = .ok m ∧
        BelongsTo m ⟨0, 19, 24⟩ origin ∧
        origin.module.isBeneath (outsideTree.canonical ⟨"/w/ws"⟩) = true := by
  obtain ⟨m, origin, hm, -, hbelongs, -, hbeneath⟩ :=
    planRenameSymbol_spares_foreign plan_outsideTree (⟨"/w/out/main.ol"⟩, ⟨0, 19, 24⟩) (by decide)
  exact ⟨plan_outsideTree, m, origin, hm, hbelongs, hbeneath⟩

/-! ## The definition is what the rename is about -/

/-- What the definition at a caret has to do with a plan that is asked for there. -/
structure DefinitionAgrees (config : Config) (tree : FileTree) (plan : RenamePlan)
    (owner : Binding) (target : Definition) : Prop where
  /-- The definition is a declaration of its module, and the text there has the name. -/
  declared : ∃ d s, config.compileModule tree target.module none = .ok d ∧
    d.path = target.module ∧ tree.readText target.module = .ok d.source ∧
    s ∈ d.table.declared ∧ s.name = target.name ∧ s.span = target.span ∧
    holds d.source target.span target.name = true
  /-- When the owner is a declaration, it is the definition, and the plan edits it under
  its name.  When the owner is an import, this has an alias, and the plan does not edit
  the module of the definition. -/
  owner : ∃ m symbol, config.compileModule tree owner.module none = .ok m ∧
    m.table.lookup owner.name = some symbol ∧
    match symbol with
    | .declared _ => (target.module, target.span) ∈ plan.places ∧
      ∀ entry ∈ plan.edits, ∀ edit ∈ entry.2, edit.symbol = target.name
    | .imported s => s.aliased = true ∧
      ∀ entry ∈ plan.edits, entry.1.same target.module = false

/-- A source pointer leads to a dependency. -/
theorem Grounded.pointsTo {b next : Binding} {d : Module} (h : Grounded config tree b d)
    (hpoints : PointsTo config tree b next) :
    ∃ e, DependsOn config tree d e ∧ Grounded config tree next e := by
  obtain ⟨d', s, hd', hlookup, rfl⟩ := hpoints
  obtain rfl := Except.ok.inj (h.compiled.symm.trans hd')
  exact h.linked.exists_dependency (mem_imported_of_lookup hlookup).1

theorem Grounded.pointsTo_all {b last : Binding} {d : Module} (h : Grounded config tree b d)
    (hpoints : Relation.ReflTransGen (PointsTo config tree) b last) :
    ∃ e, Relation.ReflTransGen (DependsOn config tree) d e ∧ Grounded config tree last e := by
  induction hpoints with
  | refl => exact ⟨d, .refl, h⟩
  | tail _ hstep ih =>
    obtain ⟨e, hreach, he⟩ := ih
    obtain ⟨e', hdep, he'⟩ := he.pointsTo hstep
    exact ⟨e', hreach.tail hdep, he'⟩

/-- The module that declares an imported name is reached along imports. -/
theorem Linked.exists_declaring {m : Module} (h : Linked config tree m) {s : ImportedSymbol}
    (hs : s ∈ m.table.imported) :
    ∃ e, Relation.TransGen (DependsOn config tree) m e ∧ e.path = s.origin.module := by
  obtain ⟨d, symbol, hdep, hsource, hsymbol, horigin⟩ := h.exists_grounded_source hs
  obtain ⟨last, hpoints, _, _, -, -, -, hdeclared⟩ := hsource.exists_declaration hsymbol
  obtain ⟨e, hreach, he⟩ := hsource.pointsTo_all hpoints
  refine ⟨e, .head' hdep hreach, ?_⟩
  rw [horigin, hdeclared, he.path]

namespace PlannedFor

variable {plan : RenamePlan} {w : Workspace} {start : Module} {modules : List Module}
  {owner : Binding} {symbol : Symbol}
  (h : PlannedFor config tree file name root plan w start modules owner symbol)

include h

/-- From the modules that a plan edits, imports lead to the module of the owner. -/
theorem reaches_owner {d : Module} (howner : Grounded config tree owner d) {m : Module}
    (hm : m ∈ (ImportIndex.ofModules (modules ++ [start])).modules) {span : Span}
    (hplace : (m.path, span) ∈ plan.places) :
    Relation.ReflTransGen (DependsOn config tree) m d := by
  have hreaches : ∀ {b e}, Grounded config tree b e →
      Relation.ReflTransGen (ImportIndex.ofModules (modules ++ [start])).ClimbsTo b owner →
      Relation.ReflTransGen (DependsOn config tree) e d := by
    intro b e he hclimb
    obtain ⟨-, -, d', hreach, hd'⟩ := h.linked.climb_all he hclimb
    rwa [Except.ok.inj (howner.compiled.symm.trans hd'.compiled)]
  obtain ⟨hlinked, -⟩ := h.linked.linked m hm
  rcases (h.mem_places_iff hm).1 hplace with ⟨hclimb, huse⟩ | ⟨s, hs, -, -, hclimb⟩
  · exact hreaches (h.linked.grounded hm (hlinked.mem_names_of_use huse)) hclimb
  · obtain ⟨e, hdep, he⟩ := hlinked.exists_dependency hs
    exact .head hdep (hreaches he hclimb)

/-- When the owner is an import, the plan does not edit the module of its origin. -/
theorem not_same_origin {d : Module} (howner : Grounded config tree owner d) {s : ImportedSymbol}
    (hs : s ∈ d.table.imported) {entry : Path × List RenameEdit} (hentry : entry ∈ plan.edits) :
    entry.1.same s.origin.module = false := by
  obtain ⟨span, hplace⟩ := h.exists_place_of_mem_edits hentry
  obtain ⟨m, hm, hpath⟩ := h.exists_of_mem_places hplace
  obtain ⟨hlinked, hdisk⟩ := h.linked.linked m hm
  obtain ⟨e, hreach, he⟩ := howner.linked.exists_declaring hs
  rw [← he, ← hpath]
  -- the edited module would otherwise depend on itself, by way of the owner
  apply hlinked.not_same_of_reach hdisk
  apply Relation.TransGen.trans_right _ hreach
  apply h.reaches_owner howner hm
  rwa [hpath]

/-- The definition of the symbol agrees with the plan. -/
theorem definitionAgrees :
    DefinitionAgrees config tree plan owner (symbol.definitionIn start.path) where
  declared := by
    obtain ⟨last, -, d, s, hd, hpath, hlookup, horigin⟩ :=
      h.grounded_start.exists_declaration h.lookup
    obtain ⟨hs, hname⟩ := mem_declared_of_lookup hlookup
    obtain ⟨-, hlinked, -, hdisk⟩ := linked_of_compileModule hd
    obtain ⟨_, _, hindexes⟩ := hlinked.exists_indexesReferences
    have htext : tree.readText last.module = .ok d.source := by
      rw [← hpath]
      exact (hdisk rfl).text
    have hholds : holds d.source s.span s.name = true :=
      hindexes.holds_use s.name s.span (hindexes.declared s hs)
    rw [Symbol.definitionIn, horigin]
    exact ⟨d, s, hd, hpath, htext, hs, hname, rfl, hname ▸ hholds⟩
  owner := by
    obtain ⟨hname, ⟨d, symbol', hd, hsymbol', horigin⟩, d', howner⟩ := h.owner_shares
    obtain rfl := Except.ok.inj (howner.compiled.symm.trans hd)
    obtain ⟨hindexed, haliased⟩ := h.owner_ends howner
    refine ⟨d', symbol', hd, hsymbol', ?_⟩
    rw [Symbol.definitionIn, horigin]
    cases symbol' with
    | declared s =>
      obtain ⟨hs, hdeclared⟩ := mem_declared_of_lookup hsymbol'
      obtain ⟨_, _, hindexes⟩ := howner.linked.exists_indexesReferences
      have hspan : s.span ∈ d'.table.usesOf name := by
        rw [← hname, ← hdeclared]
        exact hindexes.declared s hs
      have hself : (⟨d'.path, name⟩ : Binding) = owner := by
        rw [howner.path, ← hname]
      refine ⟨(h.mem_places_iff hindexed).2 (.inl ⟨?_, hspan⟩), fun entry hentry edit hedit => ?_⟩
      · rw [hself]
      · exact (h.symbol_of_mem_edits hentry hedit).trans (hdeclared.trans hname).symm
    | imported s =>
      refine ⟨haliased s hsymbol', fun entry hentry => ?_⟩
      exact h.not_same_origin howner (mem_imported_of_lookup hsymbol').1 hentry

end PlannedFor

theorem findDefinition_eq {line column : Nat} {m : Module} {word : Word} {symbol : Symbol}
    (hm : config.compileModule tree file none = .ok m)
    (hword : wordAt m.source line column = .ok word) (hempty : word.isEmpty = false)
    (hsymbol : m.table.lookup word.text = some symbol) :
    (findDefinition config.compiler file none line column tree).1 =
      some (symbol.definitionIn m.path) := by
  have hcompile : config.compiler.compile file none tree =
      (config.compileModule tree file none, tree) := rfl
  simp only [findDefinition, stateM_bind_apply, hcompile, hm, stateM_pure_apply]
  simp [Module.definitionAt?, hword, hempty, hsymbol]

/-- At the caret of a rename that has a plan with edits, the definition is found.  It is
the declaration that the rename is about: the plan edits it, unless the rename is one of
an alias, and then the plan does not come near it. -/
theorem findDefinition_of_planRename {line column : Nat} {plan : RenamePlan}
    (hplan : (planRename config.compiler config file line column root tree).1 =
      .ok (.completed plan))
    (hedits : plan.edits ≠ []) :
    ∃ word w start modules owner symbol target, wordAt start.source line column = .ok word ∧
      PlannedFor config tree file word.text root plan w start modules owner symbol ∧
      (findDefinition config.compiler file none line column tree).1 = some target ∧
      DefinitionAgrees config tree plan owner target := by
  obtain ⟨word, w, start, modules, owner, symbol, hword, hempty, h⟩ :=
    exists_plannedFor_of_planRename hplan hedits
  exact ⟨word, w, start, modules, owner, symbol, symbol.definitionIn start.path, hword, h,
    findDefinition_eq h.compiled hword hempty h.lookup, h.definitionAgrees⟩

/-- The definition of a name that was given an alias on its way. -/
theorem findDefinition_of_planRename_reexport :
    (planRename Config.default.compiler .default ⟨"/w/c.ol"⟩ 1 9 ⟨"/w"⟩ reexportTree).1 =
        .ok (.completed reexportPlan) ∧
      (findDefinition Config.default.compiler ⟨"/w/c.ol"⟩ none 1 9 reexportTree).1 =
        some ⟨⟨"/w/a.ol"⟩, ⟨0, 5, 10⟩, "Shape"⟩ ∧
      ∃ owner, DefinitionAgrees .default reexportTree reexportPlan owner
        ⟨⟨"/w/a.ol"⟩, ⟨0, 5, 10⟩, "Shape"⟩ := by
  have hplan : (planRename Config.default.compiler .default ⟨"/w/c.ol"⟩ 1 9 ⟨"/w"⟩
      reexportTree).1 = .ok (.completed reexportPlan) := eq_ok_of_toOption (by decide +kernel)
  have htarget : (findDefinition Config.default.compiler ⟨"/w/c.ol"⟩ none 1 9 reexportTree).1 =
      some ⟨⟨"/w/a.ol"⟩, ⟨0, 5, 10⟩, "Shape"⟩ := by decide +kernel
  obtain ⟨_, _, _, _, owner, _, target, -, -, hfound, hagrees⟩ :=
    findDefinition_of_planRename hplan nofun
  obtain rfl := Option.some.inj (htarget.symm.trans hfound)
  exact ⟨hplan, htarget, owner, hagrees⟩

end SymbolAtlas
