import SymbolAtlas.Proofs.LocalCompilation

/-!
# What a fault says

A compilation that fails reports one fault, which may lie in another module than the compiled
one.  Whatever the fault says is true of a module that is reached along import statements: the
file cannot be read, the text is not well formed, a name is bound that is bound already, a
package path leads nowhere, a name is taken from a module that does not bind it, or imports
lead back to where they came from.

## Main Definitions

* `Outline.bindings`: the identifiers that bind names, in the order in which they are entered.
* `Compilation.Finds`: a fault says what is true of a module that is reached.

## Main Statements

* `bindItems_eq_error`, `declareAll_eq_error`: the faults of single names.
* `Compilation.buildModule_finds`: the faults of one module, given those of its imports.
* `Compilation.load_finds`: the faults of an imported module.
* `Compilation.finds_of_result`: a compilation finds the fault that it reports.
-/

namespace SymbolAtlas

/-! ## Faults of single names -/

/-- The identifiers that bind names, declared ones first. -/
def Outline.bindings (o : Outline) : List Identifier :=
  o.declarations.map (·.name) ++ (o.imports.flatMap ImportStatement.items).map (·.binding)

/-- The fault that a name is bound which is bound already, by an identifier behind others. -/
def BindsAgain (bindings : List Identifier) (name : String) (span : Span) : Prop :=
  ∃ front back, bindings = front ++ ⟨name, span⟩ :: back ∧ name ∈ front.map (·.text)

namespace SymbolTable

variable {t : SymbolTable} {existing : Span}

theorem mem_names_of_declare {s : DeclaredSymbol} (h : t.declare s = .error existing) :
    s.name ∈ t.names := by
  by_contra hnew
  cases h.symm.trans (declare_eq_ok_iff.2 ⟨hnew, rfl⟩)

theorem mem_names_of_bindImport {s : ImportedSymbol} (h : t.bindImport s = .error existing) :
    s.name ∈ t.names := by
  by_contra hnew
  cases h.symm.trans (bindImport_eq_ok_iff.2 ⟨hnew, rfl⟩)

end SymbolTable

/-- Declarations cannot be entered when one of them declares a name again. -/
theorem declareAll_eq_error {path : Path} {declarations : List Declaration} {fault : Fault}
    (h : declareAll path declarations (.empty path) = .error fault) :
    ∃ name span, fault = .duplicateSymbol path name span ∧
      BindsAgain (declarations.map (·.name)) name span := by
  obtain ⟨front, d, back, t, rfl, hfront, hlast⟩ := exists_of_foldlM_eq_error h
  obtain ⟨-, -, rfl⟩ := declareAll_eq_ok_iff.1 hfront
  split at hlast
  · cases hlast
  · next existing hdeclare =>
    have hname := SymbolTable.mem_names_of_declare hdeclare
    refine ⟨d.name.text, d.name.span, (Except.error.inj hlast).symm, front.map (·.name),
      back.map (·.name), by simp, ?_⟩
    simpa [SymbolTable.mem_names_addDeclared, Declaration.symbol, Function.comp_def] using hname

/-- An item cannot be bound when its name is not bound where it is taken from, or when what it
binds is bound already. -/
theorem bindItem_eq_error {path : Path} {dependency : Module} {item : ImportItem}
    {t : SymbolTable} {fault : Fault} (h : bindItem path dependency t item = .error fault) :
    (item.name.text ∉ dependency.table.names ∧
        fault = .symbolNotFound path dependency.path item.name.text item.name.span) ∨
      (item.binding.text ∈ t.names ∧
        fault = .duplicateSymbol path item.binding.text item.binding.span) := by
  unfold bindItem at h
  cases hlookup : dependency.table.lookup item.name.text with
  | none =>
    rw [hlookup] at h
    exact .inl ⟨SymbolTable.lookup_eq_none_iff.1 hlookup, (Except.error.inj h).symm⟩
  | some symbol =>
    rw [hlookup] at h
    dsimp only at h
    split at h
    · cases h
    · next existing hbind =>
      exact .inr ⟨SymbolTable.mem_names_of_bindImport hbind, (Except.error.inj h).symm⟩

/-- What items have bound so far. -/
theorem mem_names_of_bindItems {path : Path} {dependency : Module} {items : List ImportItem}
    {t t' : SymbolTable} (h : bindItems path dependency items t = .ok t') {name : String} :
    name ∈ t'.names ↔ name ∈ t.names ∨ name ∈ items.map (·.binding.text) := by
  unfold bindItems at h
  induction items generalizing t with
  | nil =>
    obtain rfl := Except.ok.inj h
    simp
  | cons item items ih =>
    rw [List.foldlM_cons, bind_eq_ok_iff] at h
    obtain ⟨t₁, hfirst, hothers⟩ := h
    obtain ⟨_, ⟨symbol, -, rfl⟩, -, rfl⟩ := bindItem_eq_ok_iff.1 hfirst
    rw [ih hothers, SymbolTable.mem_names_addImported, List.map_cons, List.mem_cons, or_assoc]
    simp [ImportItem.importedAs]

/-- Items cannot be bound when one of them cannot be bound behind the others. -/
theorem bindItems_eq_error {path : Path} {dependency : Module} {items : List ImportItem}
    {t : SymbolTable} {fault : Fault} (h : bindItems path dependency items t = .error fault) :
    (∃ item ∈ items, item.name.text ∉ dependency.table.names ∧
        fault = .symbolNotFound path dependency.path item.name.text item.name.span) ∨
      ∃ front item back, items = front ++ item :: back ∧
        (item.binding.text ∈ t.names ∨ item.binding.text ∈ front.map (·.binding.text)) ∧
        fault = .duplicateSymbol path item.binding.text item.binding.span := by
  obtain ⟨front, item, back, t', rfl, hfront, hlast⟩ := exists_of_foldlM_eq_error h
  rcases bindItem_eq_error hlast with ⟨hunbound, hfault⟩ | ⟨hbound, hfault⟩
  · exact .inl ⟨item, by simp, hunbound, hfault⟩
  · exact .inr ⟨front, item, back, rfl, (mem_names_of_bindItems hfront).1 hbound, hfault⟩

/-! ## Faults of modules -/

namespace Compilation

variable {c : Compilation}

/-- A fault says what is true of a module that is reached. -/
inductive Finds (c : Compilation) : Fault → Prop where
  | unreadable {p : Path} {cause : ReadError} (reached : c.Reaches p)
      (unread : c.text p = .error cause) : c.Finds (.unreadable p cause)
  | malformed {p : Path} {source : String} {cause : SyntaxError} (reached : c.Reaches p)
      (text : c.text p = .ok source) (parse : Outline.parse source = .error cause) :
      c.Finds (.malformed p cause)
  /-- A name is bound by an identifier behind one that binds it already. -/
  | duplicateSymbol {p : Path} {outline : Outline} {name : String} {span : Span}
      (reached : c.Reaches p) (outlined : c.Outlined p outline)
      (again : BindsAgain outline.bindings name span) : c.Finds (.duplicateSymbol p name span)
  /-- The package path of an import statement leads nowhere. -/
  | moduleNotFound {p : Path} {outline : Outline} {s : ImportStatement} (reached : c.Reaches p)
      (outlined : c.Outlined p outline) (statement : s ∈ outline.imports)
      (nowhere : resolvePackage? c.tree p.parent s.package c.config.searchFolders
        c.config.extension = none) :
      c.Finds (.moduleNotFound p s.package s.first.name.span)
  /-- An import statement takes a name that is not bound where it leads to. -/
  | symbolNotFound {p q : Path} {outline other : Outline} {s : ImportStatement}
      {item : ImportItem} (reached : c.Reaches p) (outlined : c.Outlined p outline)
      (statement : s ∈ outline.imports) (leads : c.Leads p s q) (taken : item ∈ s.items)
      (target : c.Outlined q other) (unbound : item.name.text ∉ other.boundNames) :
      c.Finds (.symbolNotFound p q item.name.text item.name.span)
  /-- An import statement leads to a module from which imports lead back. -/
  | importCycle {p q r : Path} (reached : c.Reaches p) (imports : c.Imports p q)
      (same : r.same q = true) (back : Relation.ReflTransGen c.Imports r p) :
      c.Finds (.importCycle p q)

theorem Finds.reaches {fault : Fault} (h : c.Finds fault) : c.Reaches fault.path := by
  cases h <;> assumption

end Compilation

section Building

variable {config : Config} {tree : FileTree} {loadModule : Path → Crawl Module} {path : Path}
  {memory memory' : List Module} {fault : Fault}

/-- What statements have bound so far. -/
theorem mem_names_of_bindStatements {statements : List ImportStatement} {t t' : SymbolTable}
    (h : statements.foldlM (bindStatement config tree loadModule path) t memory =
      .ok (t', memory')) {name : String} :
    name ∈ t'.names ↔ name ∈ t.names ∨
      name ∈ (statements.flatMap ImportStatement.items).map (·.binding.text) := by
  induction statements generalizing t memory with
  | nil =>
    obtain ⟨rfl, -⟩ := Prod.mk.inj (Except.ok.inj h)
    simp
  | cons s statements ih =>
    rw [List.foldlM_cons, stateT_bind_eq_ok_iff] at h
    obtain ⟨t₁, memory₁, hfirst, hothers⟩ := h
    obtain ⟨target, d, -, -, hitems⟩ := bindStatement_eq_ok_iff.1 hfirst
    rw [ih hothers, mem_names_of_bindItems hitems, List.flatMap_cons, List.map_append,
      List.mem_append, or_assoc]

/-- A statement cannot be bound when it leads nowhere, when the module that it leads to cannot
be loaded, or when one of its items cannot be bound. -/
theorem bindStatement_eq_error {t : SymbolTable} {s : ImportStatement}
    (h : bindStatement config tree loadModule path t s memory = .error fault) :
    (resolvePackage? tree path.parent s.package config.searchFolders config.extension = none ∧
        fault = .moduleNotFound path s.package s.first.name.span) ∨
      ∃ target, resolvePackage? tree path.parent s.package config.searchFolders
          config.extension = some target ∧
        (loadModule (tree.canonical target) memory = .error fault ∨
          ∃ d memory', loadModule (tree.canonical target) memory = .ok (d, memory') ∧
            bindItems path d s.items t = .error fault) := by
  unfold bindStatement at h
  cases hresolve : resolvePackage? tree path.parent s.package config.searchFolders
      config.extension with
  | none =>
    rw [hresolve] at h
    exact .inl ⟨rfl, (Except.error.inj h).symm⟩
  | some target =>
    rw [hresolve] at h
    refine .inr ⟨target, rfl, ?_⟩
    rcases stateT_bind_eq_error_iff.1 h with h | ⟨d, memory', hload, hbind⟩
    · exact .inl h
    · exact .inr ⟨d, memory', hload, stateT_lift_eq_error_iff.1 hbind⟩

/-- A module cannot be built when its text is not well formed, when a declaration cannot be
entered or when a statement cannot be bound behind the others. -/
theorem buildModule_eq_error {source : String}
    (h : buildModule config tree loadModule path source memory = .error fault) :
    (∃ cause, Outline.parse source = .error cause ∧ fault = .malformed path cause) ∨
      ∃ outline, Outline.parse source = .ok outline ∧
        (declareAll path outline.declarations (.empty path) = .error fault ∨
          ∃ t front s back t' memory', declareAll path outline.declarations (.empty path) = .ok t ∧
            outline.imports = front ++ s :: back ∧
            front.foldlM (bindStatement config tree loadModule path) t memory =
              .ok (t', memory') ∧
            bindStatement config tree loadModule path t' s memory' = .error fault) := by
  cases hparse : Outline.parse source with
  | error cause =>
    rw [buildModule, hparse] at h
    exact .inl ⟨cause, rfl, (Except.error.inj h).symm⟩
  | ok outline =>
    rw [buildModule, hparse] at h
    refine .inr ⟨outline, rfl, ?_⟩
    rcases stateT_bind_eq_error_iff.1 h with htable | ⟨_, _, -, hlast⟩
    · rcases stateT_bind_eq_error_iff.1 htable with hdeclare | ⟨t, _, hdeclare, hrest⟩
      · exact .inl (stateT_lift_eq_error_iff.1 hdeclare)
      · obtain ⟨hdeclared, rfl⟩ := stateT_lift_eq_ok_iff.1 hdeclare
        rcases stateT_bind_eq_error_iff.1 hrest with hbind | ⟨_, _, -, hlast⟩
        · obtain ⟨front, s, back, t', memory', hsplit, hfront, hfails⟩ :=
            exists_of_stateT_foldlM_eq_error hbind
          exact .inr ⟨t, front, s, back, t', memory', hdeclared, hsplit, hfront, hfails⟩
        · cases hlast
    · cases hlast

theorem readModule_eq_error (h : readModule tree path = .error fault) :
    ∃ cause, tree.readText path = .error cause ∧ fault = .unreadable path cause := by
  unfold readModule at h
  cases hread : tree.readText path with
  | ok source =>
    rw [hread] at h
    cases h
  | error cause =>
    rw [hread] at h
    exact ⟨cause, rfl, (Except.error.inj h).symm⟩

/-- A module cannot be loaded when it is being built, when its file cannot be read or when it
cannot be built. -/
theorem load_eq_error {budget : Nat} {opened : List Path} {importer target : Path}
    (h : load config tree budget opened importer target memory = .error fault) :
    ((opened.any (·.same target) = true ∨ budget = 0) ∧ fault = .importCycle importer target) ∨
      (opened.any (·.same target) = false ∧ ∃ more, budget = more + 1 ∧
        ((∃ cause, tree.readText target = .error cause ∧ fault = .unreadable target cause) ∨
          ∃ source, tree.readText target = .ok source ∧
            buildModule config tree (load config tree more (target :: opened) target) target
              source memory = .error fault)) := by
  rw [load.eq_def] at h
  rcases stateT_bind_eq_error_iff.1 h with hget | ⟨finished, memory₁, hget, hrest⟩
  · cases hget
  · obtain ⟨rfl, rfl⟩ := Prod.mk.inj (Except.ok.inj hget)
    cases hfind : memory.find? (·.path.same target) with
    | some found =>
      rw [hfind] at hrest
      cases hrest
    | none =>
      rw [hfind] at hrest
      dsimp only at hrest
      cases hopen : opened.any (·.same target) with
      | true =>
        rw [hopen] at hrest
        exact .inl ⟨.inl rfl, (Except.error.inj hrest).symm⟩
      | false =>
        rw [hopen, if_neg Bool.false_ne_true] at hrest
        cases budget with
        | zero => exact .inl ⟨.inr rfl, (Except.error.inj hrest).symm⟩
        | succ more =>
          refine .inr ⟨rfl, more, rfl, ?_⟩
          rcases stateT_bind_eq_error_iff.1 hrest with hread | ⟨source, _, hread, hbuild⟩
          · exact .inl (readModule_eq_error (stateT_lift_eq_error_iff.1 hread))
          · obtain ⟨hsource, rfl⟩ := stateT_lift_eq_ok_iff.1 hread
            rcases stateT_bind_eq_error_iff.1 hbuild with hfails | ⟨_, _, -, hlast⟩
            · exact .inr ⟨source, readModule_eq_ok_iff.1 hsource, hfails⟩
            · cases hlast

end Building

theorem BindsAgain.append {bindings : List Identifier} {name : String} {span : Span}
    (h : BindsAgain bindings name span) (more : List Identifier) :
    BindsAgain (bindings ++ more) name span := by
  obtain ⟨front, back, rfl, hname⟩ := h
  exact ⟨front, back ++ more, by rw [List.append_assoc, List.cons_append], hname⟩

/-- An item binds a name again that is declared or bound by an item in front of it. -/
theorem Outline.bindsAgain {o : Outline} {front back : List ImportStatement} {s : ImportStatement}
    (himports : o.imports = front ++ s :: back) {before behind : List ImportItem}
    {item : ImportItem} (hitems : s.items = before ++ item :: behind)
    (h : item.binding.text ∈ o.declarations.map (·.name.text) ∨
      item.binding.text ∈ (front.flatMap ImportStatement.items).map (·.binding.text) ∨
      item.binding.text ∈ before.map (·.binding.text)) :
    BindsAgain o.bindings item.binding.text item.binding.span := by
  refine ⟨o.declarations.map (·.name) ++ ((front.flatMap ImportStatement.items).map (·.binding) ++
    before.map (·.binding)), behind.map (·.binding) ++
    (back.flatMap ImportStatement.items).map (·.binding), ?_, ?_⟩
  · simp [bindings, himports, hitems]
  · simpa [Function.comp_def] using h

namespace Compilation

variable {c : Compilation}

/-- A module of the memory of a crawl has the text that the compilation sees at its path. -/
theorem sees_of_finished {memory : List Module} (h : Finished c.config c.tree c.start memory)
    {d : Module} (hd : d ∈ memory) : c.Sees d := by
  obtain ⟨hlinked, hdisk⟩ := h.settled d hd
  exact ⟨by rw [text_of_ne_start (h.elsewhere d hd), hdisk.text], hlinked⟩

/-- Whatever keeps a module that is reached from being built is found, when that is so for the
modules that it imports. -/
theorem buildModule_finds {p : Path} {source : String} {loadModule : Path → Crawl Module}
    (hreached : c.Reaches p) (htext : c.text p = .ok source)
    (hkeeps : Keeps c.tree (Finished c.config c.tree c.start) loadModule)
    (hload : ∀ {q memory fault}, c.Imports p q → Finished c.config c.tree c.start memory →
      loadModule q memory = .error fault → c.Finds fault)
    {memory : List Module} (hmemory : Finished c.config c.tree c.start memory) {fault : Fault}
    (h : buildModule c.config c.tree loadModule p source memory = .error fault) :
    c.Finds fault := by
  rcases buildModule_eq_error h with ⟨cause, hparse, rfl⟩ | ⟨outline, hparse, hrest⟩
  · exact .malformed hreached htext hparse
  have houtlined : c.Outlined p outline := ⟨source, htext, hparse⟩
  rcases hrest with hdeclare | ⟨t, front, s, back, t', memory', hdeclare, himports, hfront, hfails⟩
  · obtain ⟨name, span, rfl, hagain⟩ := declareAll_eq_error hdeclare
    exact .duplicateSymbol hreached houtlined (hagain.append _)
  have hs : s ∈ outline.imports := by
    rw [himports]
    exact List.mem_append_right _ List.mem_cons_self
  obtain ⟨-, -, -, -, -, hmemory'⟩ :=
    foldlM_bindStatement_sound (crawlInvariant_finished _ _ _) hkeeps hfront hmemory
  rcases bindStatement_eq_error hfails with ⟨hnowhere, rfl⟩ | ⟨target, hresolve, hrest⟩
  · exact .moduleNotFound hreached houtlined hs hnowhere
  have hleads : c.Leads p s (c.tree.canonical target) :=
    ⟨target, hresolve, isFile_of_resolvePackage? hresolve, rfl⟩
  rcases hrest with hloads | ⟨d, memory'', hloads, hitems⟩
  · exact hload ⟨outline, houtlined, s, hs, hleads⟩ hmemory' hloads
  rcases bindItems_eq_error hitems with
    ⟨item, hitem, hunbound, rfl⟩ | ⟨before, item, behind, hsplit, hbound, rfl⟩
  · obtain ⟨names, contents, hnames, hat⟩ := exists_names_of_resolvePackage? hresolve
    rw [hnames] at hloads hleads
    obtain ⟨hpath, hfinished, -, hmemory''⟩ :=
      hkeeps (Option.isSome_of_eq_some hat) hloads hmemory'
    obtain ⟨other, hother, hbinds, -⟩ := (sees_of_finished hmemory'' hfinished).exists_outline
    rw [← hpath] at hleads
    exact .symbolNotFound hreached houtlined hs hleads hitem hother (hbinds ▸ hunbound)
  · obtain ⟨-, -, rfl⟩ := declareAll_eq_ok_iff.1 hdeclare
    refine .duplicateSymbol hreached houtlined (Outline.bindsAgain himports hsplit ?_)
    rw [mem_names_of_bindStatements hfront, SymbolTable.mem_names_addDeclared, or_assoc] at hbound
    simpa [Declaration.symbol, Function.comp_def, or_assoc] using hbound

theorem source_eq_error {fault : Fault} (h : c.source = .error fault) :
    ∃ cause, c.text c.start = .error cause ∧ fault = .unreadable c.start cause := by
  unfold source at h
  unfold text
  cases hbuffer : c.buffer with
  | some buffer =>
    rw [hbuffer] at h
    cases h
  | none =>
    rw [hbuffer] at h
    exact readModule_eq_error h

theorem keeps_load {budget : Nat} {opened : List Path} (hstart : c.start ∈ opened)
    (importer : Path) : Keeps c.tree (Finished c.config c.tree c.start)
      (load c.config c.tree budget opened importer) := by
  refine load_sound (crawlInvariant_finished _ _ _) budget opened importer fun p hp => ?_
  simpa using List.any_eq_false.1 hp c.start hstart

/-- Whatever keeps an imported module from being loaded is found.  The modules that are being
built lead to the importer, so that an import of one of them closes a cycle. -/
theorem load_finds {budget : Nat} {opened : List Path} {importer target : Path}
    {memory : List Module} {fault : Fault} (hbudget : OpenedWithin c.tree budget opened)
    (hstart : c.start ∈ opened)
    (hopened : ∀ p ∈ opened, Relation.ReflTransGen c.Imports p importer)
    (himports : c.Imports importer target) (hmemory : Finished c.config c.tree c.start memory)
    (h : load c.config c.tree budget opened importer target memory = .error fault) :
    c.Finds fault := by
  -- by the budget, of which each module that is opened takes one
  induction budget using Nat.strongRecOn generalizing opened importer target memory fault with
  | _ budget ih =>
    obtain ⟨names, contents, rfl, hat⟩ := himports.exists_names
    have hreached : c.Reaches importer := hopened c.start hstart
    rcases load_eq_error h with ⟨hclosed, rfl⟩ | ⟨hnew, more, rfl, hrest⟩
    · -- a budget that is used up leaves no file to be opened, so that is a cycle as well
      have hopen : opened.any (·.same (.ofNames names)) = true := by
        refine hclosed.elim id fun hzero => ?_
        by_contra hnew
        obtain ⟨more, hmore, -⟩ := hbudget.open hat (by simpa using hnew)
        omega
      obtain ⟨r, hr, hsame⟩ := List.any_eq_true.1 hopen
      exact .importCycle hreached himports hsame (hopened r hr)
    have htext := text_of_ne_start (by simpa using List.any_eq_false.1 hnew c.start hstart)
    rcases hrest with ⟨cause, hread, rfl⟩ | ⟨source, hread, hbuild⟩
    · exact .unreadable (hreached.tail himports) (htext.trans hread)
    obtain ⟨_, hmore, hdeeper⟩ := hbudget.open hat hnew
    obtain rfl := Nat.succ.inj hmore
    refine buildModule_finds (hreached.tail himports) (htext.trans hread)
      (keeps_load (List.mem_cons_of_mem _ hstart) _) ?_ hmemory hbuild
    intro q memory' fault' hnext hmemory' hload
    refine ih more (Nat.lt_succ_self more) hdeeper (List.mem_cons_of_mem _ hstart) ?_ hnext
      hmemory' hload
    exact List.forall_mem_cons.2 ⟨.refl, fun p hp => (hopened p hp).tail himports⟩

/-- A compilation finds the fault that it reports. -/
theorem finds_of_result {fault : Fault} (h : c.result = .error fault) : c.Finds fault := by
  have hnone : Finished c.config c.tree c.start [] := ⟨nofun, nofun, nofun⟩
  rw [result_eq, bind_eq_error_iff] at h
  rcases h with hsource | ⟨source, hsource, hcrawl⟩
  · obtain ⟨cause, hread, rfl⟩ := source_eq_error hsource
    exact .unreadable .refl hread
  refine buildModule_finds .refl (text_start_of_source hsource)
    (keeps_load List.mem_cons_self c.start) ?_ hnone (map_eq_error_iff.1 hcrawl)
  intro q memory fault' himports hmemory hload
  refine load_finds (openedWithin_start c.tree c.start) List.mem_cons_self ?_ himports hmemory hload
  exact List.forall_mem_cons.2 ⟨.refl, nofun⟩

end Compilation

end SymbolAtlas
