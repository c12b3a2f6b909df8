import Mathlib.Data.List.Perm.Subperm
import Mathlib.Logic.Relation
import SymbolAtlas.Proofs.Files
import SymbolAtlas.Proofs.Tables

/-!
# Compiled modules are linked modules

Compilation remembers the modules it has finished and the ones it is building.
None of this shows in the result: a compiled module is one whose text can be
parsed, whose imports lead to files that are compiled modules in turn, and whose
table is linked with those.  Such a module is determined by its path and its
text, and it never imports itself along any chain of imports.

## Main Definitions

* `OnDisk`: a module has the text of its file.
* `Resolves`: an import statement leads to a module.
* `LinkedTo`, `Linked`: a module is linked, one level down and all the way down.
* `DependsOn`: a module imports another.
* `CrawlInvariant`: what holds of the memories that a crawl goes through.

## Main Statements

* `Linked.unique`: path and text determine a linked module.
* `Linked.acyclic`: a linked module does not import itself.
* `load_sound`: a crawl keeps its invariants.
* `linked_of_compileModule`: what is compiled is linked.
* `finished_of_compileModule`: what a compilation has finished in the end.
* `compileModule_of_linked`: what is linked is compiled.
-/

namespace SymbolAtlas

/-- A module has a canonical path and the text of the file there. -/
structure OnDisk (tree : FileTree) (m : Module) : Prop where
  canonical : tree.canonical m.path = m.path
  text : tree.readText m.path = .ok m.source

/-- An import statement of the module at `importer` leads to a module. -/
structure Resolves (config : Config) (tree : FileTree) (importer : Path) (s : ImportStatement)
    (d : Module) : Prop where
  target : ∃ target, resolvePackage? tree importer.parent s.package config.searchFolders
    config.extension = some target ∧ d.path = tree.canonical target
  text : tree.readText d.path = .ok d.source

/-- A module is linked with the modules that its imports lead to. -/
def LinkedTo (config : Config) (tree : FileTree) (m : Module) (dependencies : List Module) : Prop :=
  ∃ outline, Outline.parse m.source = .ok outline ∧
    List.Forall₂ (Resolves config tree m.path) outline.imports dependencies ∧
    Links m.path outline dependencies m.table

/-- A module is linked with modules that are linked themselves. -/
inductive Linked (config : Config) (tree : FileTree) : Module → Prop where
  | intro {m : Module} {dependencies : List Module} (links : LinkedTo config tree m dependencies)
      (linked : ∀ d ∈ dependencies, Linked config tree d) : Linked config tree m

/-- A module imports another, which is linked. -/
def DependsOn (config : Config) (tree : FileTree) (m d : Module) : Prop :=
  ∃ dependencies, LinkedTo config tree m dependencies ∧
    (∀ d ∈ dependencies, Linked config tree d) ∧ d ∈ dependencies

variable {config : Config} {tree : FileTree}

/-! ## Where modules are -/

theorem FileTree.exists_names_of_readText {p : Path} {text : String}
    (h : tree.readText p = .ok text) :
    ∃ names, tree.locate p = .ok names ∧ tree.at? names = some (.file (.text text)) := by
  unfold readText at h
  split at h
  · cases h
  · next names hlocate =>
    refine ⟨names, hlocate, ?_⟩
    split at h
    · next source hat => rw [hat, Except.ok.inj h]
    all_goals cases h

theorem FileTree.exists_locate_of_isFile {p : Path} (h : tree.isFile p = true) :
    ∃ names contents, tree.locate p = .ok names ∧ tree.at? names = some (.file contents) := by
  unfold isFile entry? at h
  cases hlocate : tree.locate p with
  | error e => simp [hlocate] at h
  | ok names =>
    simp only [hlocate] at h
    split at h
    · next contents hat => exact ⟨names, contents, rfl, hat⟩
    · cases h

/-- The canonical path of a file, by the names that lead to it. -/
theorem FileTree.exists_names_of_isFile {p : Path} (h : tree.isFile p = true) :
    ∃ names contents, tree.canonical p = .ofNames names ∧
      tree.at? names = some (.file contents) := by
  obtain ⟨names, contents, hlocate, hat⟩ := exists_locate_of_isFile h
  exact ⟨names, contents, by rw [canonical, hlocate], hat⟩

theorem isFile_of_resolvePackage? {folder target : Path} {package : PackagePath}
    {searchFolders : List Path} {extension : String}
    (h : resolvePackage? tree folder package searchFolders extension = some target) :
    tree.isFile target = true := by
  unfold resolvePackage? at h
  split at h
  · split at h
    · cases h
    · exact (Option.filter_eq_some_iff.1 h).2
  · exact List.find?_some h

/-- The file of a module on disk, by the names that lead to it. -/
theorem OnDisk.exists_names {m : Module} (h : OnDisk tree m) :
    ∃ names, m.path = .ofNames names ∧ tree.at? names = some (.file (.text m.source)) := by
  obtain ⟨names, hlocate, hat⟩ := FileTree.exists_names_of_readText h.text
  refine ⟨names, ?_, hat⟩
  rw [← h.canonical, FileTree.canonical, hlocate]

/-- Modules on disk with the same path have equal paths and texts. -/
theorem OnDisk.eq_of_same {m m' : Module} (h : OnDisk tree m) (h' : OnDisk tree m')
    (hsame : m.path.same m'.path = true) : m.path = m'.path ∧ m.source = m'.source := by
  obtain ⟨names, hpath, -⟩ := h.exists_names
  obtain ⟨names', hpath', -⟩ := h'.exists_names
  have hnames : names = names' := by rwa [hpath, hpath', Path.same_ofNames] at hsame
  have heq : m.path = m'.path := by rw [hpath, hpath', hnames]
  exact ⟨heq, Except.ok.inj (h.text.symm.trans (heq ▸ h'.text))⟩

theorem Resolves.onDisk {importer : Path} {s : ImportStatement} {d : Module}
    (h : Resolves config tree importer s d) : OnDisk tree d := by
  obtain ⟨target, -, hpath⟩ := h.target
  exact ⟨by rw [hpath, FileTree.canonical_canonical], h.text⟩

/-! ## Linked modules are determined and not cyclic -/

theorem Resolves.eq_path_source {importer : Path} {s : ImportStatement} {d d' : Module}
    (h : Resolves config tree importer s d) (h' : Resolves config tree importer s d') :
    d.path = d'.path ∧ d.source = d'.source := by
  obtain ⟨target, htarget, hpath⟩ := h.target
  obtain ⟨target', htarget', hpath'⟩ := h'.target
  have heq : d.path = d'.path := by
    rw [hpath, hpath', Option.some.inj (htarget.symm.trans htarget')]
  exact ⟨heq, Except.ok.inj (h.text.symm.trans (heq ▸ h'.text))⟩

theorem eq_of_resolves {importer : Path} {statements : List ImportStatement}
    {ds ds' : List Module} (h : List.Forall₂ (Resolves config tree importer) statements ds)
    (h' : List.Forall₂ (Resolves config tree importer) statements ds')
    (heq : ∀ d ∈ ds, ∀ d' ∈ ds', d.path = d'.path → d.source = d'.source → d = d') : ds = ds' := by
  induction h generalizing ds' with
  | nil => cases h'; rfl
  | @cons s d statements ds hd _ ih =>
    cases h' with
    | @cons _ d' _ ds' hd' hds' =>
      obtain ⟨hpath, hsource⟩ := hd.eq_path_source hd'
      rw [heq d List.mem_cons_self d' List.mem_cons_self hpath hsource]
      rw [ih hds' fun a ha b hb =>
        heq a (List.mem_cons_of_mem d ha) b (List.mem_cons_of_mem d' hb)]

/-- The path and the text of a linked module determine the rest. -/
theorem Linked.unique {m m' : Module} (h : Linked config tree m) (h' : Linked config tree m')
    (hpath : m.path = m'.path) (hsource : m.source = m'.source) : m = m' := by
  induction h generalizing m' with
  | @intro m ds links _ ih =>
    cases h' with
    | @intro _ ds' links' linked' =>
      obtain ⟨outline, hparse, hresolves, hlinks⟩ := links
      obtain ⟨outline', hparse', hresolves', hlinks'⟩ := links'
      obtain rfl : outline = outline' := Except.ok.inj (hparse.symm.trans (hsource ▸ hparse'))
      rw [← hpath] at hresolves' hlinks'
      obtain rfl : ds = ds' :=
        eq_of_resolves hresolves hresolves' fun d hd d' hd' => ih d hd (linked' d' hd')
      have htable : m.table = m'.table := hlinks.unique hlinks'
      calc m = ⟨m.path, m.source, m.table⟩ := rfl
        _ = ⟨m'.path, m'.source, m'.table⟩ := by rw [hpath, hsource, htable]

theorem LinkedTo.unique {m : Module} {ds ds' : List Module} (h : LinkedTo config tree m ds)
    (hds : ∀ d ∈ ds, Linked config tree d) (h' : LinkedTo config tree m ds')
    (hds' : ∀ d ∈ ds', Linked config tree d) : ds = ds' := by
  obtain ⟨outline, hparse, hresolves, -⟩ := h
  obtain ⟨outline', hparse', hresolves', -⟩ := h'
  obtain rfl : outline = outline' := Except.ok.inj (hparse.symm.trans hparse')
  exact eq_of_resolves hresolves hresolves' fun d hd d' hd' => (hds d hd).unique (hds' d' hd')

theorem DependsOn.linked {m d : Module} (h : DependsOn config tree m d) : Linked config tree d := by
  obtain ⟨ds, -, hlinked, hd⟩ := h
  exact hlinked d hd

theorem DependsOn.onDisk {m d : Module} (h : DependsOn config tree m d) : OnDisk tree d := by
  obtain ⟨ds, ⟨outline, -, hresolves, -⟩, -, hd⟩ := h
  obtain ⟨s, -, hs⟩ := exists_left_of_forall₂ hresolves hd
  exact hs.onDisk

/-- Chains of imports end. -/
theorem Linked.acc {m : Module} (h : Linked config tree m) :
    Acc (fun d m => DependsOn config tree m d) m := by
  induction h with
  | @intro m ds links linked ih =>
    constructor
    rintro d ⟨ds', links', linked', hd⟩
    rw [← links.unique linked links' linked'] at hd
    exact ih d hd

/-- A linked module does not import itself, along no chain of imports. -/
theorem Linked.acyclic {m : Module} (h : Linked config tree m) :
    ¬ Relation.TransGen (DependsOn config tree) m m := by
  have hacc := h.acc
  clear h
  induction hacc with
  | intro m _ ih =>
    intro hcycle
    obtain ⟨d, hd, hback⟩ := Relation.TransGen.head'_iff.1 hcycle
    exact ih d hd (.tail' hback hd)

/-- What a linked module on disk reaches along imports is at another path. -/
theorem Linked.not_same_of_reach {m d : Module} (h : Linked config tree m) (hdisk : OnDisk tree m)
    (hd : Relation.TransGen (DependsOn config tree) m d) : m.path.same d.path = false := by
  rw [← Bool.not_eq_true]
  intro hsame
  -- a module at the path of `m` would be `m` itself, beneath itself
  obtain ⟨_, -, hdep⟩ := Relation.TransGen.tail'_iff.1 hd
  obtain ⟨hpath, hsource⟩ := hdisk.eq_of_same hdep.onDisk hsame
  obtain rfl := h.unique hdep.linked hpath hsource
  exact h.acyclic hd

/-! ## What is compiled is linked -/

/-- The modules that a crawl has finished are linked and on disk. -/
def Settled (config : Config) (tree : FileTree) (memory : List Module) : Prop :=
  ∀ d ∈ memory, Linked config tree d ∧ OnDisk tree d

/-- What holds of every memory of a crawl that builds modules at allowed paths only:
finished modules are settled, and one more can be finished that is linked with
modules in memory. -/
structure CrawlInvariant (config : Config) (tree : FileTree) (allowed : Path → Prop)
    (Holds : List Module → Prop) : Prop where
  settled : ∀ {memory}, Holds memory → Settled config tree memory
  finish : ∀ {memory m ds}, Holds memory → LinkedTo config tree m ds → (∀ d ∈ ds, d ∈ memory) →
    OnDisk tree m → allowed m.path → Holds (m :: memory)

theorem crawlInvariant_settled (config : Config) (tree : FileTree) (allowed : Path → Prop) :
    CrawlInvariant config tree allowed (Settled config tree) where
  settled := id
  finish hmemory links hds hdisk _ :=
    List.forall_mem_cons.2 ⟨⟨.intro links fun d hd => (hmemory d (hds d hd)).1, hdisk⟩, hmemory⟩

/-- A way to load modules keeps an invariant: it gives the module of a file, which
is in memory from then on with all that was there before. -/
def Keeps (tree : FileTree) (Holds : List Module → Prop) (loadModule : Path → Crawl Module) :
    Prop :=
  ∀ {names memory m memory'}, (tree.at? names).isSome →
    loadModule (.ofNames names) memory = .ok (m, memory') → Holds memory →
    m.path = .ofNames names ∧ m ∈ memory' ∧ memory ⊆ memory' ∧ Holds memory'

theorem bindStatement_eq_ok_iff {loadModule : Path → Crawl Module} {path : Path}
    {t t' : SymbolTable} {s : ImportStatement} {memory memory' : List Module} :
    bindStatement config tree loadModule path t s memory = .ok (t', memory') ↔
      ∃ target d, resolvePackage? tree path.parent s.package config.searchFolders
          config.extension = some target ∧
        loadModule (tree.canonical target) memory = .ok (d, memory') ∧
        bindItems path d s.items t = .ok t' := by
  unfold bindStatement
  cases hresolve : resolvePackage? tree path.parent s.package config.searchFolders
      config.extension with
  | none =>
    constructor
    · intro h
      cases h
    · rintro ⟨target, d, htarget, -⟩
      cases htarget
  | some target =>
    dsimp only
    rw [stateT_bind_eq_ok_iff]
    constructor
    · rintro ⟨d, memory₁, hload, hbind⟩
      obtain ⟨hitems, rfl⟩ := stateT_lift_eq_ok_iff.1 hbind
      exact ⟨target, d, rfl, hload, hitems⟩
    · rintro ⟨target', d, htarget, hload, hbind⟩
      obtain rfl := Option.some.inj htarget
      exact ⟨d, memory', hload, stateT_lift_eq_ok_iff.2 ⟨hbind, rfl⟩⟩

theorem exists_names_of_resolvePackage? {folder target : Path} {package : PackagePath}
    {searchFolders : List Path} {extension : String}
    (h : resolvePackage? tree folder package searchFolders extension = some target) :
    ∃ names contents, tree.canonical target = .ofNames names ∧
      tree.at? names = some (.file contents) :=
  FileTree.exists_names_of_isFile (isFile_of_resolvePackage? h)

section Sound

variable {allowed : Path → Prop} {Holds : List Module → Prop} {loadModule : Path → Crawl Module}

theorem foldlM_bindStatement_sound (hinv : CrawlInvariant config tree allowed Holds)
    (hload : Keeps tree Holds loadModule) {path : Path} {statements : List ImportStatement}
    {t t' : SymbolTable} {memory memory' : List Module}
    (h : statements.foldlM (bindStatement config tree loadModule path) t memory =
      .ok (t', memory')) (hmemory : Holds memory) :
    ∃ ds, List.Forall₂ (Resolves config tree path) statements ds ∧ (∀ d ∈ ds, d ∈ memory') ∧
      (statements.zip ds).foldlM (fun t pair => bindItems path pair.2 pair.1.items t) t = .ok t' ∧
      memory ⊆ memory' ∧ Holds memory' := by
  induction statements generalizing t memory with
  | nil =>
    obtain ⟨rfl, rfl⟩ := Prod.mk.inj (Except.ok.inj h)
    exact ⟨[], .nil, nofun, rfl, List.Subset.refl _, hmemory⟩
  | cons s statements ih =>
    rw [List.foldlM_cons, stateT_bind_eq_ok_iff] at h
    obtain ⟨t₁, memory₁, hfirst, hothers⟩ := h
    obtain ⟨target, d, htarget, hd, hbind⟩ := bindStatement_eq_ok_iff.1 hfirst
    obtain ⟨names, contents, hnames, hat⟩ := exists_names_of_resolvePackage? htarget
    rw [hnames] at hd
    obtain ⟨hpath, hfinished, hkept, hmemory₁⟩ :=
      hload (Option.isSome_of_eq_some hat) hd hmemory
    obtain ⟨ds, hresolves, hds, htables, hgrown, hmemory'⟩ := ih hothers hmemory₁
    have hdisk : OnDisk tree d := (hinv.settled hmemory₁ d hfinished).2
    refine ⟨d :: ds, .cons ⟨⟨target, htarget, hpath.trans hnames.symm⟩, hdisk.text⟩ hresolves,
      List.forall_mem_cons.2 ⟨hgrown hfinished, hds⟩, ?_, List.Subset.trans hkept hgrown, hmemory'⟩
    rw [List.zip_cons_cons, List.foldlM_cons, bind_eq_ok_iff]
    exact ⟨t₁, hbind, htables⟩

theorem buildModule_sound (hinv : CrawlInvariant config tree allowed Holds)
    (hload : Keeps tree Holds loadModule) {path : Path} {source : String} {m : Module}
    {memory memory' : List Module}
    (h : buildModule config tree loadModule path source memory = .ok (m, memory'))
    (hmemory : Holds memory) :
    m.path = path ∧ m.source = source ∧ memory ⊆ memory' ∧ Holds memory' ∧
      ∃ ds, LinkedTo config tree m ds ∧ ∀ d ∈ ds, d ∈ memory' := by
  cases hparse : Outline.parse source with
  | error cause =>
    rw [buildModule, hparse] at h
    cases h
  | ok outline =>
    rw [buildModule, hparse] at h
    obtain ⟨t, memory₁, htable, hm⟩ := stateT_bind_eq_ok_iff.1 h
    obtain ⟨rfl, rfl⟩ := Prod.mk.inj (Except.ok.inj hm)
    obtain ⟨t₁, memory₂, hdeclare, hrest⟩ := stateT_bind_eq_ok_iff.1 htable
    obtain ⟨hdeclared, rfl⟩ := stateT_lift_eq_ok_iff.1 hdeclare
    obtain ⟨t₂, memory₃, hbind, hrecord⟩ := stateT_bind_eq_ok_iff.1 hrest
    obtain ⟨rfl, rfl⟩ := Prod.mk.inj (Except.ok.inj hrecord)
    obtain ⟨ds, hresolves, hds, htables, hgrown, hmemory'⟩ :=
      foldlM_bindStatement_sound hinv hload hbind hmemory
    exact ⟨rfl, rfl, hgrown, hmemory', ds, ⟨outline, hparse, hresolves,
      links_iff.2 ⟨t₁, t₂, hdeclared, htables, rfl⟩⟩, hds⟩

end Sound

theorem readModule_eq_ok_iff {path : Path} {source : String} :
    readModule tree path = .ok source ↔ tree.readText path = .ok source := by
  unfold readModule
  cases tree.readText path with
  | ok text => simp
  | error e => simp

/-- A module is loaded from memory, or it is built while it is open. -/
theorem load_eq_ok_iff {budget : Nat} {opened : List Path} {importer target : Path}
    {memory memory' : List Module} {m : Module} :
    load config tree budget opened importer target memory = .ok (m, memory') ↔
      (memory.find? (·.path.same target) = some m ∧ memory' = memory) ∨
      (memory.find? (·.path.same target) = none ∧ opened.any (·.same target) = false ∧
        ∃ more source memory₁, budget = more + 1 ∧ tree.readText target = .ok source ∧
          buildModule config tree (load config tree more (target :: opened) target) target source
            memory = .ok (m, memory₁) ∧ memory' = m :: memory₁) := by
  rw [load.eq_def, stateT_bind_eq_ok_iff]
  have hget : ∀ {finished memory₁ : List Module},
      (get : Crawl (List Module)) memory = .ok (finished, memory₁) ↔
        memory = finished ∧ memory = memory₁ := by
    intro finished memory₁
    constructor
    · intro h
      obtain ⟨rfl, rfl⟩ := Prod.mk.inj (Except.ok.inj h)
      exact ⟨rfl, rfl⟩
    · rintro ⟨rfl, rfl⟩
      rfl
  simp only [hget]
  constructor
  · rintro ⟨_, _, ⟨rfl, rfl⟩, h⟩
    cases hfind : memory.find? (·.path.same target) with
    | some found =>
      rw [hfind] at h
      obtain ⟨rfl, rfl⟩ := Prod.mk.inj (Except.ok.inj h)
      exact .inl ⟨rfl, rfl⟩
    | none =>
      rw [hfind] at h
      dsimp only at h
      cases hopen : opened.any (·.same target) with
      | true =>
        rw [hopen] at h
        cases h
      | false =>
        rw [hopen, if_neg Bool.false_ne_true] at h
        cases budget with
        | zero => cases h
        | succ more =>
          obtain ⟨source, memory₁, hread, hrest⟩ := stateT_bind_eq_ok_iff.1 h
          obtain ⟨hsource, rfl⟩ := stateT_lift_eq_ok_iff.1 hread
          obtain ⟨built, memory₂, hbuild, hlast⟩ := stateT_bind_eq_ok_iff.1 hrest
          obtain ⟨rfl, rfl⟩ := Prod.mk.inj (Except.ok.inj hlast)
          exact .inr ⟨rfl, rfl, more, source, memory₂, rfl, readModule_eq_ok_iff.1 hsource,
            hbuild, rfl⟩
  · rintro (⟨hfind, rfl⟩ | ⟨hfind, hopen, more, source, memory₁, rfl, hread, hbuild, rfl⟩)
    · refine ⟨memory', memory', ⟨rfl, rfl⟩, ?_⟩
      rw [hfind]
      rfl
    · refine ⟨memory, memory, ⟨rfl, rfl⟩, ?_⟩
      rw [hfind]
      dsimp only
      rw [hopen, if_neg Bool.false_ne_true]
      refine stateT_bind_eq_ok_iff.2 ⟨source, memory, ?_, ?_⟩
      · exact stateT_lift_eq_ok_iff.2 ⟨readModule_eq_ok_iff.2 hread, rfl⟩
      · exact stateT_bind_eq_ok_iff.2 ⟨m, memory₁, hbuild, rfl⟩

/-- What is found in the memory of a crawl is the linked module at its path. -/
theorem Settled.of_find? {memory : List Module} (h : Settled config tree memory)
    {names : List EntryName} {m : Module}
    (hfind : memory.find? (·.path.same (.ofNames names)) = some m) :
    m.path = .ofNames names ∧ Linked config tree m ∧ OnDisk tree m := by
  obtain ⟨hlinked, hdisk⟩ := h m (List.mem_of_find?_eq_some hfind)
  obtain ⟨names', hpath, -⟩ := hdisk.exists_names
  have hsame : m.path.same (.ofNames names) = true := by simpa using List.find?_some hfind
  rw [hpath, Path.same_ofNames] at hsame
  exact ⟨hsame ▸ hpath, hlinked, hdisk⟩

/-- Loading keeps an invariant, whether a module comes from memory or from a file. -/
theorem load_sound {allowed : Path → Prop} {Holds : List Module → Prop}
    (hinv : CrawlInvariant config tree allowed Holds) (budget : Nat) (opened : List Path)
    (importer : Path) (hallowed : ∀ p, opened.any (·.same p) = false → allowed p) :
    Keeps tree Holds (load config tree budget opened importer) := by
  induction budget generalizing opened importer with
  | zero =>
    intro names memory m memory' hsome h hmemory
    rcases load_eq_ok_iff.1 h with ⟨hfind, rfl⟩ | ⟨-, -, more, -, -, hbudget, -⟩
    · exact ⟨((hinv.settled hmemory).of_find? hfind).1, List.mem_of_find?_eq_some hfind,
        List.Subset.refl _, hmemory⟩
    · cases hbudget
  | succ budget ih =>
    intro names memory m memory' hsome h hmemory
    rcases load_eq_ok_iff.1 h with
      ⟨hfind, rfl⟩ | ⟨-, hnew, more, source, memory₁, hbudget, hread, hbuild, rfl⟩
    · exact ⟨((hinv.settled hmemory).of_find? hfind).1, List.mem_of_find?_eq_some hfind,
        List.Subset.refl _, hmemory⟩
    · obtain rfl := Nat.succ.inj hbudget
      have hdeeper : ∀ p, (.ofNames names :: opened).any (·.same p) = false → allowed p := by
        intro p hp
        rw [List.any_cons, Bool.or_eq_false_iff] at hp
        exact hallowed p hp.2
      obtain ⟨hpath, hsource, hgrown, hmemory₁, ds, links, hds⟩ :=
        buildModule_sound hinv (ih _ _ hdeeper) hbuild hmemory
      have hdisk : OnDisk tree m := by
        refine ⟨?_, by rw [hpath, hsource, hread]⟩
        rw [hpath, FileTree.canonical, FileTree.locate_ofNames hsome]
      refine ⟨hpath, List.mem_cons_self, fun d hd => List.mem_cons_of_mem m (hgrown hd), ?_⟩
      exact hinv.finish hmemory₁ links hds hdisk (hpath ▸ hallowed _ hnew)

/-- A module is compiled by building it from its buffer or from its file. -/
theorem compileModule_eq_ok_iff {file : Path} {buffer : Option String} {m : Module} :
    config.compileModule tree file buffer = .ok m ↔ ∃ source memory,
      (buffer = some source ∨ buffer = none ∧ tree.readText (tree.canonical file) = .ok source) ∧
      buildModule config tree
        (load config tree tree.fileCount [tree.canonical file] (tree.canonical file))
        (tree.canonical file) source [] = .ok (m, memory) := by
  have hrun : ∀ {crawl : Crawl Module}, crawl.run' [] = .ok m ↔
      ∃ memory, crawl [] = .ok (m, memory) := by
    intro crawl
    show Prod.fst <$> crawl [] = .ok m ↔ _
    cases crawl [] with
    | error e => simp [Functor.map, Except.map]
    | ok pair => simp [Functor.map, Except.map, Prod.ext_iff]
  unfold Config.compileModule
  cases buffer with
  | some text =>
    show StateT.run' _ [] = (Except.ok m : Except Fault Module) ↔ _
    rw [hrun]
    simp
  | none =>
    show (readModule tree (tree.canonical file) >>= _) = .ok m ↔ _
    rw [bind_eq_ok_iff]
    simp only [hrun, readModule_eq_ok_iff]
    simp

/-- Compiling a module leaves a memory with the modules that it is linked with. -/
theorem crawl_of_compileModule {file : Path} {buffer : Option String} {m : Module}
    {Holds : List Module → Prop}
    (hinv : CrawlInvariant config tree (fun p => (tree.canonical file).same p = false) Holds)
    (hnone : Holds []) (h : config.compileModule tree file buffer = .ok m) :
    m.path = tree.canonical file ∧
      (buffer = some m.source ∨ buffer = none ∧ tree.readText m.path = .ok m.source) ∧
      ∃ memory ds, buildModule config tree (load config tree tree.fileCount [m.path] m.path) m.path
          m.source [] = .ok (m, memory) ∧
        Holds memory ∧ LinkedTo config tree m ds ∧ ∀ d ∈ ds, d ∈ memory := by
  obtain ⟨source, memory, hsource, hbuild⟩ := compileModule_eq_ok_iff.1 h
  have hallowed : ∀ p, [tree.canonical file].any (·.same p) = false →
      (tree.canonical file).same p = false := by
    intro p hp
    simpa using hp
  obtain ⟨hpath, rfl, -, hmemory, ds, links, hds⟩ :=
    buildModule_sound hinv (load_sound hinv _ _ _ hallowed) hbuild hnone
  refine ⟨hpath, hpath ▸ hsource, memory, ds, ?_, hmemory, links, hds⟩
  rw [hpath]
  exact hbuild

theorem Config.compileModule_canonical (config : Config) (tree : FileTree) (file : Path) :
    config.compileModule tree (tree.canonical file) none = config.compileModule tree file none := by
  rw [compileModule, compileModule, FileTree.canonical_canonical]

/-- A compiled module is linked, and unless a buffer was given its text is the one
of its file. -/
theorem linked_of_compileModule {file : Path} {buffer : Option String} {m : Module}
    (h : config.compileModule tree file buffer = .ok m) :
    m.path = tree.canonical file ∧ Linked config tree m ∧ buffer.getD m.source = m.source ∧
      (buffer = none → OnDisk tree m) := by
  obtain ⟨hpath, hsource, memory, ds, -, hmemory, links, hds⟩ :=
    crawl_of_compileModule (crawlInvariant_settled config tree _) (List.forall_mem_nil _) h
  refine ⟨hpath, .intro links fun d hd => (hmemory d (hds d hd)).1, ?_, ?_⟩
  · rcases hsource with rfl | ⟨rfl, -⟩ <;> rfl
  · rintro rfl
    rcases hsource with hsource | ⟨-, hread⟩
    · cases hsource
    · exact ⟨by rw [hpath, FileTree.canonical_canonical], hread⟩

/-- The memory of a crawl that never comes back to where it started: the finished
modules are elsewhere, and what they import is finished too. -/
structure Finished (config : Config) (tree : FileTree) (start : Path) (memory : List Module) :
    Prop where
  settled : Settled config tree memory
  elsewhere : ∀ d ∈ memory, start.same d.path = false
  closed : ∀ d ∈ memory, ∀ e, DependsOn config tree d e → e ∈ memory

theorem crawlInvariant_finished (config : Config) (tree : FileTree) (start : Path) :
    CrawlInvariant config tree (fun p => start.same p = false) (Finished config tree start) where
  settled h := h.settled
  finish {memory m ds} h links hds hdisk hstart := by
    have hlinked : ∀ d ∈ ds, Linked config tree d := fun d hd => (h.settled d (hds d hd)).1
    refine ⟨List.forall_mem_cons.2 ⟨⟨.intro links hlinked, hdisk⟩, h.settled⟩,
      List.forall_mem_cons.2 ⟨hstart, h.elsewhere⟩, ?_⟩
    refine List.forall_mem_cons.2 ⟨?_, fun d hd e he => List.mem_cons_of_mem m (h.closed d hd e he)⟩
    rintro e ⟨ds', links', hlinked', he⟩
    rw [← links.unique hlinked links' hlinked'] at he
    exact List.mem_cons_of_mem m (hds e he)

/-- A compilation finishes all that the compiled module reaches along its imports,
and never comes back to the module itself. -/
theorem finished_of_compileModule {file : Path} {buffer : Option String} {m : Module}
    (h : config.compileModule tree file buffer = .ok m) :
    ∃ memory, buildModule config tree (load config tree tree.fileCount [m.path] m.path) m.path
        m.source [] = .ok (m, memory) ∧
      Finished config tree m.path memory ∧
      ∀ d, Relation.TransGen (DependsOn config tree) m d → d ∈ memory := by
  have hnone : Finished config tree (tree.canonical file) [] := ⟨nofun, nofun, nofun⟩
  obtain ⟨hpath, -, memory, ds, hbuild, hmemory, links, hds⟩ :=
    crawl_of_compileModule (crawlInvariant_finished config tree _) hnone h
  have hlinked : ∀ d ∈ ds, Linked config tree d := fun d hd => (hmemory.settled d (hds d hd)).1
  refine ⟨memory, hbuild, hpath ▸ hmemory, fun d hd => ?_⟩
  induction hd with
  | single hd =>
    obtain ⟨ds', links', hlinked', hd⟩ := hd
    rw [← links.unique hlinked links' hlinked'] at hd
    exact hds _ hd
  | tail _ hd ih => exact hmemory.closed _ ih _ hd

/-! ## What is linked is compiled -/

theorem foldlM_bindStatement_complete {loadModule : Path → Crawl Module} {path : Path}
    {statements : List ImportStatement} {ds : List Module}
    (hload : ∀ d ∈ ds, ∀ memory, Settled config tree memory →
      ∃ memory', loadModule d.path memory = .ok (d, memory') ∧ Settled config tree memory')
    (hresolves : List.Forall₂ (Resolves config tree path) statements ds) {t t' : SymbolTable}
    (hbind : (statements.zip ds).foldlM
      (fun t pair => bindItems path pair.2 pair.1.items t) t = .ok t')
    {memory : List Module} (hmemory : Settled config tree memory) :
    ∃ memory', statements.foldlM (bindStatement config tree loadModule path) t memory =
      .ok (t', memory') ∧ Settled config tree memory' := by
  induction hresolves generalizing t memory with
  | nil => exact ⟨memory, by rw [← Except.ok.inj hbind]; rfl, hmemory⟩
  | @cons s d statements ds hd _ ih =>
    rw [List.zip_cons_cons, List.foldlM_cons, bind_eq_ok_iff] at hbind
    obtain ⟨t₁, hfirst, hothers⟩ := hbind
    obtain ⟨hloadFirst, hloadOthers⟩ := List.forall_mem_cons.1 hload
    obtain ⟨target, htarget, hpath⟩ := hd.target
    obtain ⟨memory₁, hmodule, hmemory₁⟩ := hloadFirst memory hmemory
    obtain ⟨memory₂, hrest, hmemory₂⟩ := ih hloadOthers hothers hmemory₁
    refine ⟨memory₂, ?_, hmemory₂⟩
    rw [List.foldlM_cons, stateT_bind_eq_ok_iff]
    refine ⟨t₁, memory₁, bindStatement_eq_ok_iff.2 ⟨target, d, htarget, ?_, hfirst⟩, hrest⟩
    rw [← hpath]
    exact hmodule

theorem buildModule_complete {loadModule : Path → Crawl Module} {m : Module} {ds : List Module}
    (hload : ∀ d ∈ ds, ∀ memory, Settled config tree memory →
      ∃ memory', loadModule d.path memory = .ok (d, memory') ∧ Settled config tree memory')
    (hlinks : LinkedTo config tree m ds) {memory : List Module}
    (hmemory : Settled config tree memory) :
    ∃ memory', buildModule config tree loadModule m.path m.source memory = .ok (m, memory') ∧
      Settled config tree memory' := by
  obtain ⟨outline, hparse, hresolves, hlinks⟩ := hlinks
  obtain ⟨t₁, t₂, hdeclare, hbind, htable⟩ := links_iff.1 hlinks
  obtain ⟨memory', hcrawl, hmemory'⟩ := foldlM_bindStatement_complete hload hresolves hbind hmemory
  refine ⟨memory', ?_, hmemory'⟩
  have hbuild : buildTable config tree loadModule m.path outline memory =
      .ok (m.table, memory') := by
    refine stateT_bind_eq_ok_iff.2 ⟨t₁, memory, stateT_lift_eq_ok_iff.2 ⟨hdeclare, rfl⟩, ?_⟩
    refine stateT_bind_eq_ok_iff.2 ⟨t₂, memory', hcrawl, ?_⟩
    rw [htable]
    rfl
  rw [buildModule, hparse]
  exact stateT_bind_eq_ok_iff.2 ⟨m.table, memory', hbuild, rfl⟩

/-- The paths that are open in a crawl: the start, and in front of it different
files, so many that with the budget there is room for every file. -/
def OpenedWithin (tree : FileTree) (budget : Nat) (opened : List Path) : Prop :=
  ∃ (start : Path) (files : List (List EntryName)),
    opened = files.map Path.ofNames ++ [start] ∧ files.Nodup ∧
    (∀ names ∈ files, names ∈ tree.top.walk) ∧ tree.fileCount ≤ files.length + budget

/-- The module that is compiled leaves room for every file. -/
theorem openedWithin_start (tree : FileTree) (start : Path) :
    OpenedWithin tree tree.fileCount [start] := ⟨start, [], rfl, .nil, nofun, by simp⟩

/-- A file that is not open can be opened. -/
theorem OpenedWithin.open {budget : Nat} {opened : List Path}
    (h : OpenedWithin tree budget opened) {names : List EntryName} {contents : Contents}
    (hat : tree.at? names = some (.file contents))
    (hnew : opened.any (·.same (.ofNames names)) = false) :
    ∃ more, budget = more + 1 ∧ OpenedWithin tree more (.ofNames names :: opened) := by
  obtain ⟨start, files, rfl, hnodup, hfiles, hcount⟩ := h
  have hfresh : names ∉ files := by
    intro hmem
    rw [List.any_eq_false] at hnew
    exact hnew _ (List.mem_append_left _ (List.mem_map_of_mem hmem)) (Path.same_refl _)
  have hwalk : ∀ f ∈ names :: files, f ∈ tree.top.walk :=
    List.forall_mem_cons.2 ⟨Entry.mem_walk.2 ⟨_, hat⟩, hfiles⟩
  -- different files are no more than there are files
  have hlength : (names :: files).length ≤ tree.fileCount :=
    ((List.nodup_cons.2 ⟨hfresh, hnodup⟩).subperm hwalk).length_le
  cases budget with
  | zero => simp only [List.length_cons] at hlength; omega
  | succ more =>
    refine ⟨more, rfl, start, names :: files, by simp, List.nodup_cons.2 ⟨hfresh, hnodup⟩,
      hwalk, ?_⟩
    simp only [List.length_cons]
    omega

/-- A linked module on disk can be loaded, unless a module that it reaches is
open. -/
theorem load_complete {m : Module} (h : Linked config tree m) (hdisk : OnDisk tree m)
    {budget : Nat} {opened : List Path} {importer : Path} {memory : List Module}
    (hopened : ∀ p ∈ opened, ∀ d, Relation.ReflTransGen (DependsOn config tree) m d →
      p.same d.path = false)
    (hbudget : OpenedWithin tree budget opened) (hmemory : Settled config tree memory) :
    ∃ memory', load config tree budget opened importer m.path memory = .ok (m, memory') ∧
      Settled config tree memory' := by
  induction h generalizing budget opened importer memory with
  | @intro m ds links linked ih =>
    have hlinked : Linked config tree m := .intro links linked
    cases hfind : memory.find? (·.path.same m.path) with
    | some found =>
      obtain ⟨hfound, hfoundDisk⟩ := hmemory found (List.mem_of_find?_eq_some hfind)
      have hsame : found.path.same m.path = true := by simpa using List.find?_some hfind
      obtain ⟨hpath, hsource⟩ := hfoundDisk.eq_of_same hdisk hsame
      rw [hfound.unique hlinked hpath hsource] at hfind
      exact ⟨memory, load_eq_ok_iff.2 (.inl ⟨hfind, rfl⟩), hmemory⟩
    | none =>
      have hnew : opened.any (·.same m.path) = false := by
        rw [List.any_eq_false]
        exact fun p hp => by simp [hopened p hp m .refl]
      obtain ⟨names, hnames, hat⟩ := hdisk.exists_names
      obtain ⟨more, rfl, hmore⟩ := hbudget.open hat (hnames ▸ hnew)
      rw [← hnames] at hmore
      have hload : ∀ d ∈ ds, ∀ memory, Settled config tree memory → ∃ memory',
          load config tree more (m.path :: opened) m.path d.path memory = .ok (d, memory') ∧
          Settled config tree memory' := by
        intro d hd memory hmemory
        have hdep : DependsOn config tree m d := ⟨ds, links, linked, hd⟩
        refine ih d hd hdep.onDisk (fun p hp x hx => ?_) hmore hmemory
        rcases List.mem_cons.1 hp with rfl | hp
        · exact hlinked.not_same_of_reach hdisk (.head' hdep hx)
        · exact hopened p hp x (.head hdep hx)
      obtain ⟨memory₁, hbuild, hmemory₁⟩ := buildModule_complete hload links hmemory
      refine ⟨m :: memory₁, load_eq_ok_iff.2 (.inr ⟨hfind, hnew, more, m.source, memory₁, rfl,
        hdisk.text, hbuild, rfl⟩), ?_⟩
      exact List.forall_mem_cons.2 ⟨⟨hlinked, hdisk⟩, hmemory₁⟩

/-- A linked module is compiled from its text, unless it is reached again along
its imports. -/
theorem compileModule_of_linked {m : Module} (h : Linked config tree m) {file : Path}
    (hfile : tree.canonical file = m.path) {buffer : Option String}
    (hbuffer : buffer = some m.source ∨ buffer = none ∧ tree.readText m.path = .ok m.source)
    (hfresh : ∀ d, Relation.TransGen (DependsOn config tree) m d → m.path.same d.path = false) :
    config.compileModule tree file buffer = .ok m := by
  cases h with
  | @intro _ ds links linked =>
    have hload : ∀ d ∈ ds, ∀ memory, Settled config tree memory → ∃ memory',
        load config tree tree.fileCount [m.path] m.path d.path memory = .ok (d, memory') ∧
        Settled config tree memory' := by
      intro d hd memory hmemory
      have hdep : DependsOn config tree m d := ⟨ds, links, linked, hd⟩
      refine load_complete hdep.linked hdep.onDisk (fun p hp x hx => ?_)
        (openedWithin_start tree m.path) hmemory
      obtain rfl := List.mem_singleton.1 hp
      exact hfresh x (.head' hdep hx)
    have hnone : Settled config tree [] := List.forall_mem_nil _
    obtain ⟨memory, hbuild, -⟩ := buildModule_complete hload links hnone
    refine compileModule_eq_ok_iff.2 ⟨m.source, memory, ?_, ?_⟩
    · rwa [hfile]
    · rwa [hfile]

/-- A linked module on disk is what compiling its file gives. -/
theorem compileModule_of_onDisk {m : Module} (h : Linked config tree m) (hdisk : OnDisk tree m) :
    config.compileModule tree m.path none = .ok m :=
  compileModule_of_linked h hdisk.canonical (.inr ⟨rfl, hdisk.text⟩)
    fun _ hd => h.not_same_of_reach hdisk hd

end SymbolAtlas
