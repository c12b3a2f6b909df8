import SymbolAtlas.Proofs.Linking

/-!
# When a compilation succeeds

Which modules a compilation reaches is a matter of their texts and of where package
paths lead, and so is whether it succeeds: every module that is reached along import
statements has to be sound by itself and towards the modules it imports, and none
may be reached from itself.  A crawl ends because the modules that it is building at
one time are different files, and for the same reason the budget that it is given
never decides anything.

## Main Definitions

* `Compilation`: what is compiled, with the text that it sees of each module
  (`Compilation.text`) and the import statements between modules
  (`Compilation.Imports`).
* `Compilation.Sound`: what is asked of a module that is reached.
* `Compilation.Opens`: how the modules that are being built pile up.
* `Compilation.Exact`: a compilation ends, succeeds exactly when it should and uses
  the texts that it should.

## Main Statements

* `Compilation.acc_opens`: modules cannot pile up without end.
* `load_of_le_budget`: a larger budget changes nothing.
* `Compilation.exists_linked_of_pile`: sound modules can be linked.
* `Compilation.sound_of_result`: what a successful compilation reaches is sound.
* `compilation_exact`: every compilation is exact.
-/

namespace SymbolAtlas

/-- One compilation: the module at a path is compiled, from a buffer or from its
file. -/
structure Compilation where
  config : Config
  tree : FileTree
  file : Path
  buffer : Option String

namespace Compilation

variable (c : Compilation)

/-- The path of the module that is compiled. -/
def start : Path := c.tree.canonical c.file

/-- What the compilation gives. -/
def result : Except Fault Module := c.config.compileModule c.tree c.file c.buffer

/-- The crawl of the compilation from a given text, with a given budget. -/
def crawl (budget : Nat) (source : String) : Except Fault (Module × List Module) :=
  buildModule c.config c.tree (load c.config c.tree budget [c.start] c.start) c.start source []

/-- What the compilation gives with a given budget. -/
def resultWithin (budget : Nat) : Except Fault Module := do
  let source ← match c.buffer with
    | some text => .ok text
    | none => readModule c.tree c.start
  Prod.fst <$> c.crawl budget source

theorem resultWithin_fileCount : c.resultWithin c.tree.fileCount = c.result := rfl

/-- The text of a module: the buffer stands for the module that is compiled, and
every other text is on disk. -/
def text (p : Path) : Except ReadError String :=
  match c.buffer with
  | some source => if c.start.same p then .ok source else c.tree.readText p
  | none => c.tree.readText p

/-- A module can be read and has an outline. -/
def Outlined (p : Path) (outline : Outline) : Prop :=
  ∃ source, c.text p = .ok source ∧ Outline.parse source = .ok outline

/-- The package path of an import statement of the module at `p` leads to a file, and
`q` is its canonical path. -/
def Leads (p : Path) (s : ImportStatement) (q : Path) : Prop :=
  ∃ target, resolvePackage? c.tree p.parent s.package c.config.searchFolders
    c.config.extension = some target ∧ c.tree.isFile target = true ∧ q = c.tree.canonical target

/-- An import statement of one module leads to another. -/
def Imports (p q : Path) : Prop :=
  ∃ outline, c.Outlined p outline ∧ ∃ s ∈ outline.imports, c.Leads p s q

/-- What is asked of a module with a given outline. -/
structure SoundAs (p : Path) (outline : Outline) : Prop where
  outlined : c.Outlined p outline
  /-- Every package path leads to a file. -/
  resolves : ∀ s ∈ outline.imports, ∃ q, c.Leads p s q
  /-- Every imported name is bound where it is taken from. -/
  bound : ∀ s ∈ outline.imports, ∀ q, c.Leads p s q → ∀ item ∈ s.items,
    ∃ other, c.Outlined q other ∧ item.name.text ∈ other.boundNames
  /-- Declared and imported names are different from each other. -/
  distinct : outline.boundNames.Nodup
  /-- The module is on no import cycle. -/
  acyclic : ∀ q, Relation.TransGen c.Imports p q → p.same q = false

/-- A module has an outline and is sound with it. -/
def Sound (p : Path) : Prop := ∃ outline, c.SoundAs p outline

/-- One more module is opened: the last that was opened imports it, and it is not
open yet. -/
inductive Opens : List Path → List Path → Prop where
  | imported {p q : Path} {opened : List Path} (imports : c.Imports p q)
      (new : (p :: opened).any (·.same q) = false) : Opens (p :: opened) (q :: p :: opened)

variable {c}

/-! ## A crawl ends -/

/-- What is imported is a file, by its canonical path. -/
theorem Imports.exists_names {p q : Path} (h : c.Imports p q) :
    ∃ names contents, q = .ofNames names ∧ c.tree.at? names = some (.file contents) := by
  obtain ⟨outline, -, s, -, target, -, hfile, rfl⟩ := h
  exact FileTree.exists_names_of_isFile hfile

theorem acc_opens_of_openedWithin {budget : Nat} {opened : List Path}
    (h : OpenedWithin c.tree budget opened) :
    Acc (fun next opened => c.Opens opened next) opened := by
  induction budget generalizing opened with
  | zero =>
    constructor
    rintro _ ⟨himports, hnew⟩
    obtain ⟨names, contents, rfl, hat⟩ := himports.exists_names
    obtain ⟨more, hmore, -⟩ := h.open hat hnew
    cases hmore
  | succ budget ih =>
    constructor
    rintro _ ⟨himports, hnew⟩
    obtain ⟨names, contents, rfl, hat⟩ := himports.exists_names
    obtain ⟨more, hmore, hopened⟩ := h.open hat hnew
    obtain rfl := Nat.succ.inj hmore
    exact ih hopened

/-- Modules cannot be opened one on behalf of the other without end. -/
theorem acc_opens (c : Compilation) : Acc (fun next opened => c.Opens opened next) [c.start] :=
  acc_opens_of_openedWithin (openedWithin_start c.tree c.start)

end Compilation

variable {config : Config} {tree : FileTree}

/-- Only the way files are loaded matters for what is built. -/
theorem buildModule_congr {first second : Path → Crawl Module}
    (h : ∀ names contents, tree.at? names = some (.file contents) →
      first (.ofNames names) = second (.ofNames names)) (path : Path) (source : String) :
    buildModule config tree first path source = buildModule config tree second path source := by
  have hbind : bindStatement config tree first = bindStatement config tree second := by
    funext path t s
    unfold bindStatement
    cases hresolve : resolvePackage? tree path.parent s.package config.searchFolders
        config.extension with
    | none => rfl
    | some target =>
      obtain ⟨names, contents, hnames, hat⟩ := exists_names_of_resolvePackage? hresolve
      dsimp only
      rw [hnames, h names contents hat]
  unfold buildModule buildTable
  rw [hbind]

/-- With a budget for every file that is not open, a larger one changes nothing: not
the module that is loaded, nor the fault that is found. -/
theorem load_of_le_budget {budget larger : Nat} {opened : List Path}
    (h : OpenedWithin tree budget opened) (hle : budget ≤ larger) (importer : Path)
    {names : List EntryName} {contents : Contents} (hat : tree.at? names = some (.file contents)) :
    load config tree larger opened importer (.ofNames names) =
      load config tree budget opened importer (.ofNames names) := by
  induction budget generalizing larger opened importer names contents with
  | zero =>
    have hopen : opened.any (·.same (.ofNames names)) = true := by
      by_contra hnew
      obtain ⟨more, hmore, -⟩ := h.open hat (by simpa using hnew)
      cases hmore
    rw [load.eq_def, load.eq_def config tree 0]
    simp only [hopen, if_true]
  | succ budget ih =>
    obtain ⟨larger, rfl⟩ := Nat.exists_eq_add_of_le' (Nat.one_le_of_lt hle)
    rw [load.eq_def, load.eq_def config tree (budget + 1)]
    cases hopen : opened.any (·.same (.ofNames names)) with
    | true => simp only [hopen, if_true]
    | false =>
      obtain ⟨more, hmore, hopened⟩ := h.open hat hopen
      obtain rfl := Nat.succ.inj hmore
      have hdeeper : ∀ source, buildModule config tree
          (load config tree larger (.ofNames names :: opened) (.ofNames names))
            (.ofNames names) source =
          buildModule config tree
            (load config tree budget (.ofNames names :: opened) (.ofNames names))
            (.ofNames names) source :=
        buildModule_congr (fun _ _ hat => ih hopened (Nat.le_of_succ_le_succ hle) _ hat) _
      simp only [hdeeper]

/-! ## Linked modules and their outlines -/

theorem LinkedTo.names_eq {m : Module} {ds : List Module} (h : LinkedTo config tree m ds)
    {outline : Outline} (hparse : Outline.parse m.source = .ok outline) :
    m.table.names = outline.boundNames := by
  obtain ⟨outline', hparse', hresolves, hlinks⟩ := h
  obtain rfl : outline = outline' := Except.ok.inj (hparse.symm.trans hparse')
  exact names_eq_boundNames hlinks.declared hlinks.imported hresolves.length_eq

/-- An import statement of a linked module leads to one of the modules it is linked
with, and the names of its items are bound there. -/
theorem LinkedTo.exists_resolves {m : Module} {ds : List Module} (h : LinkedTo config tree m ds)
    {outline : Outline} (hparse : Outline.parse m.source = .ok outline) {s : ImportStatement}
    (hs : s ∈ outline.imports) :
    ∃ d ∈ ds, Resolves config tree m.path s d ∧
      ∀ item ∈ s.items, item.name.text ∈ d.table.names := by
  obtain ⟨outline', hparse', hresolves, hlinks⟩ := h
  obtain rfl : outline = outline' := Except.ok.inj (hparse.symm.trans hparse')
  rw [← List.map_fst_zip (Nat.le_of_eq hresolves.length_eq)] at hs
  obtain ⟨⟨_, d⟩, hpair, rfl⟩ := List.mem_map.1 hs
  refine ⟨d, (List.of_mem_zip hpair).2, List.forall₂_zip hresolves hpair, fun item hitem => ?_⟩
  have htaken : (d, item) ∈ takenItems (outline.imports.zip ds) :=
    List.mem_flatMap.2 ⟨_, hpair, List.mem_map_of_mem hitem⟩
  obtain ⟨_, -, symbol, hsymbol, -⟩ := exists_right_of_forall₂ hlinks.imported htaken
  exact SymbolTable.isSome_lookup_iff.1 (Option.isSome_of_eq_some hsymbol)

namespace Compilation

variable {c : Compilation}

theorem text_of_ne_start {p : Path} (h : c.start.same p = false) :
    c.text p = c.tree.readText p := by
  unfold text
  cases c.buffer with
  | none => rfl
  | some source => simp only [h, Bool.false_eq_true, if_false]

theorem text_start_eq_ok_iff {source : String} :
    c.text c.start = .ok source ↔
      c.buffer = some source ∨ c.buffer = none ∧ c.tree.readText c.start = .ok source := by
  unfold text
  cases c.buffer with
  | none => simp
  | some text => simp [Path.same_refl]

theorem Outlined.unique {p : Path} {outline outline' : Outline} (h : c.Outlined p outline)
    (h' : c.Outlined p outline') : outline = outline' := by
  obtain ⟨source, htext, hparse⟩ := h
  obtain ⟨source', htext', hparse'⟩ := h'
  obtain rfl : source = source' := Except.ok.inj (htext.symm.trans htext')
  exact Except.ok.inj (hparse.symm.trans hparse')

theorem Leads.unique {p q q' : Path} {s : ImportStatement} (h : c.Leads p s q)
    (h' : c.Leads p s q') : q = q' := by
  obtain ⟨target, htarget, -, rfl⟩ := h
  obtain ⟨target', htarget', -, rfl⟩ := h'
  rw [Option.some.inj (htarget.symm.trans htarget')]

theorem leads_of_resolves {p : Path} {s : ImportStatement} {d : Module}
    (h : Resolves c.config c.tree p s d) : c.Leads p s d.path := by
  obtain ⟨target, htarget, hpath⟩ := h.target
  exact ⟨target, htarget, isFile_of_resolvePackage? htarget, hpath⟩

/-- The module at `d.path` is `d`: it has the text that the compilation sees there,
and it is linked. -/
structure Sees (c : Compilation) (d : Module) : Prop where
  text : c.text d.path = .ok d.source
  linked : Linked c.config c.tree d

/-- Dependencies of modules are import statements between their paths. -/
theorem Sees.imports {d e : Module} (h : c.Sees d) (hdep : DependsOn c.config c.tree d e) :
    c.Imports d.path e.path := by
  obtain ⟨ds, ⟨outline, hparse, hresolves, -⟩, -, he⟩ := hdep
  obtain ⟨s, hs, hleads⟩ := exists_left_of_forall₂ hresolves he
  exact ⟨outline, ⟨d.source, h.text, hparse⟩, s, hs, leads_of_resolves hleads⟩

/-- A module binds the names of its outline, each once. -/
theorem Sees.exists_outline {d : Module} (h : c.Sees d) :
    ∃ outline, c.Outlined d.path outline ∧ d.table.names = outline.boundNames ∧
      outline.boundNames.Nodup := by
  cases h.linked with
  | @intro _ ds links _ =>
    obtain ⟨outline, hparse, -, hlinks⟩ := id links
    have hnames := links.names_eq hparse
    exact ⟨outline, ⟨d.source, h.text, hparse⟩, hnames, hnames ▸ hlinks.nodup⟩

/-- Import statements of a module lead to its dependencies, where the names of their
items are bound. -/
theorem Sees.exists_dependsOn {d : Module} (h : c.Sees d) {outline : Outline}
    (houtline : c.Outlined d.path outline) {s : ImportStatement} (hs : s ∈ outline.imports) :
    ∃ e, DependsOn c.config c.tree d e ∧ c.Leads d.path s e.path ∧
      ∀ item ∈ s.items, item.name.text ∈ e.table.names := by
  obtain ⟨source, htext, hparse⟩ := houtline
  obtain rfl : d.source = source := Except.ok.inj (h.text.symm.trans htext)
  cases h.linked with
  | @intro _ ds links linked =>
    obtain ⟨e, he, hresolves, hitems⟩ := links.exists_resolves hparse hs
    exact ⟨e, ⟨ds, links, linked, he⟩, leads_of_resolves hresolves, hitems⟩

/-- What a module imports is one of its dependencies. -/
theorem Sees.exists_imported {d : Module} (h : c.Sees d) {q : Path}
    (himports : c.Imports d.path q) : ∃ e, DependsOn c.config c.tree d e ∧ e.path = q := by
  obtain ⟨outline, houtline, s, hs, hleads⟩ := himports
  obtain ⟨e, hdep, hleads', -⟩ := h.exists_dependsOn houtline hs
  exact ⟨e, hdep, hleads'.unique hleads⟩

/-! ## What a successful compilation reaches is sound -/

/-- A compilation gives a module exactly when it is the linked module with the text
at the start that never comes back to the start. -/
theorem result_eq_ok_iff {m : Module} :
    c.result = .ok m ↔ m.path = c.start ∧ c.Sees m ∧
      ∀ d, Relation.TransGen (DependsOn c.config c.tree) m d → c.start.same d.path = false := by
  constructor
  · intro h
    obtain ⟨hpath, hlinked, -⟩ := linked_of_compileModule h
    obtain ⟨memory, -, hfinished, hreached⟩ := finished_of_compileModule h
    obtain ⟨-, hsource, -⟩ :=
      crawl_of_compileModule (crawlInvariant_settled c.config c.tree _) (List.forall_mem_nil _) h
    refine ⟨hpath, ⟨?_, hlinked⟩, fun d hd => ?_⟩
    · rw [hpath] at hsource ⊢
      exact text_start_eq_ok_iff.2 hsource
    · rw [start, ← hpath]
      exact hfinished.elsewhere d (hreached d hd)
  · rintro ⟨hpath, ⟨htext, hlinked⟩, hfresh⟩
    rw [hpath] at htext
    have hsource := text_start_eq_ok_iff.1 htext
    rw [← hpath] at hsource
    exact compileModule_of_linked hlinked hpath.symm hsource (hpath ▸ hfresh)

/-- Whatever the compiled module depends on is what stands at its path. -/
theorem sees_of_result {m d : Module} (h : c.result = .ok m)
    (hd : Relation.ReflTransGen (DependsOn c.config c.tree) m d) : c.Sees d := by
  obtain ⟨-, hsees, hfresh⟩ := result_eq_ok_iff.1 h
  rcases Relation.reflTransGen_iff_eq_or_transGen.1 hd with rfl | hd
  · exact hsees
  · obtain ⟨e, -, hdep⟩ := Relation.TransGen.tail'_iff.1 hd
    refine ⟨?_, hdep.linked⟩
    rw [text_of_ne_start (hfresh d hd)]
    exact hdep.onDisk.text

/-- What is reached from a dependency of the compiled module is a dependency too. -/
theorem exists_reached {m d : Module} (h : c.result = .ok m)
    (hd : Relation.ReflTransGen (DependsOn c.config c.tree) m d) {q : Path}
    (hq : Relation.TransGen c.Imports d.path q) :
    ∃ e, Relation.TransGen (DependsOn c.config c.tree) d e ∧ e.path = q := by
  induction hq with
  | single himports =>
    obtain ⟨e, hdep, hpath⟩ := (sees_of_result h hd).exists_imported himports
    exact ⟨e, .single hdep, hpath⟩
  | tail _ himports ih =>
    obtain ⟨e, he, rfl⟩ := ih
    obtain ⟨f, hdep, hpath⟩ :=
      (sees_of_result h (hd.trans he.to_reflTransGen)).exists_imported himports
    exact ⟨f, he.tail hdep, hpath⟩

/-- No dependency of the compiled module is reached from itself. -/
theorem acyclic_of_result {m d : Module} (h : c.result = .ok m)
    (hd : Relation.ReflTransGen (DependsOn c.config c.tree) m d) {q : Path}
    (hq : Relation.TransGen c.Imports d.path q) : d.path.same q = false := by
  obtain ⟨e, he, rfl⟩ := exists_reached h hd hq
  rcases Relation.reflTransGen_iff_eq_or_transGen.1 hd with rfl | hd
  · obtain ⟨hpath, -, hfresh⟩ := result_eq_ok_iff.1 h
    rw [hpath]
    exact hfresh e he
  · obtain ⟨_, -, hdep⟩ := Relation.TransGen.tail'_iff.1 hd
    exact hdep.linked.not_same_of_reach hdep.onDisk he

/-- A dependency of the compiled module is sound. -/
theorem sound_of_dependency {m d : Module} (h : c.result = .ok m)
    (hd : Relation.ReflTransGen (DependsOn c.config c.tree) m d) : c.Sound d.path := by
  have hsees := sees_of_result h hd
  obtain ⟨outline, houtline, -, hdistinct⟩ := hsees.exists_outline
  refine ⟨outline, houtline, fun s hs => ?_, fun s hs q hq item hitem => ?_, hdistinct,
    fun q hq => acyclic_of_result h hd hq⟩
  · obtain ⟨e, -, hleads, -⟩ := hsees.exists_dependsOn houtline hs
    exact ⟨e.path, hleads⟩
  · obtain ⟨e, hdep, hleads, hitems⟩ := hsees.exists_dependsOn houtline hs
    obtain rfl := hleads.unique hq
    obtain ⟨other, hother, hnames, -⟩ := (sees_of_result h (hd.tail hdep)).exists_outline
    exact ⟨other, hother, hnames ▸ hitems item hitem⟩

/-- All that a successful compilation reaches is sound. -/
theorem sound_of_result {m : Module} (h : c.result = .ok m) {p : Path}
    (hp : Relation.ReflTransGen c.Imports c.start p) : c.Sound p := by
  have hstart : m.path = c.start := (result_eq_ok_iff.1 h).1
  rw [← hstart] at hp
  rcases Relation.reflTransGen_iff_eq_or_transGen.1 hp with rfl | hp
  · exact sound_of_dependency h .refl
  · obtain ⟨d, hd, rfl⟩ := exists_reached h .refl hp
    exact sound_of_dependency h hd.to_reflTransGen

/-! ## Sound modules can be linked -/

/-- What the start reaches is not the start, when the start is sound. -/
theorem Sound.text_of_transGen (h : c.Sound c.start) {q : Path}
    (hq : Relation.TransGen c.Imports c.start q) : c.text q = c.tree.readText q := by
  obtain ⟨outline, hsound⟩ := h
  exact text_of_ne_start (hsound.acyclic q hq)

/-- A sound module can be linked when those that it imports are. -/
theorem SoundAs.exists_linked {p : Path} {outline : Outline} (h : c.SoundAs p outline)
    (hdisk : ∀ q, c.Imports p q → c.text q = c.tree.readText q)
    (hlinked : ∀ q, c.Imports p q → ∃ d, d.path = q ∧ c.Sees d) : ∃ m, m.path = p ∧ c.Sees m := by
  have hresolves : ∀ s ∈ outline.imports, ∃ d, Resolves c.config c.tree p s d ∧ c.Sees d := by
    intro s hs
    obtain ⟨q, hleads⟩ := h.resolves s hs
    have himports : c.Imports p q := ⟨outline, h.outlined, s, hs, hleads⟩
    obtain ⟨d, rfl, hd⟩ := hlinked q himports
    obtain ⟨target, htarget, -, hpath⟩ := hleads
    exact ⟨d, ⟨⟨target, htarget, hpath⟩, (hdisk _ himports).symm.trans hd.text⟩, hd⟩
  obtain ⟨ds, hds⟩ := exists_forall₂ hresolves
  have hforall : List.Forall₂ (Resolves c.config c.tree p) outline.imports ds :=
    hds.imp fun _ _ hd => hd.1
  have hbound : ∀ taken ∈ takenItems (outline.imports.zip ds),
      taken.2.name.text ∈ taken.1.table.names := by
    intro taken htaken
    obtain ⟨⟨s, d⟩, hpair, hdependency, hitem⟩ := mem_of_mem_takenItems htaken
    obtain ⟨hresolve, hd⟩ := List.forall₂_zip hds hpair
    obtain ⟨other, hother, hmem⟩ :=
      h.bound s (List.of_mem_zip hpair).1 d.path (leads_of_resolves hresolve) taken.2 hitem
    obtain ⟨outline', houtline', hnames, -⟩ := hd.exists_outline
    rw [← hdependency, hnames, houtline'.unique hother]
    exact hmem
  obtain ⟨t, ht⟩ := exists_links p hforall.length_eq h.distinct hbound
  obtain ⟨source, htext, hparse⟩ := h.outlined
  refine ⟨⟨p, source, t⟩, rfl, htext, .intro ⟨outline, hparse, hforall, ht⟩ fun d hd => ?_⟩
  obtain ⟨s, -, -, hsees⟩ := exists_left_of_forall₂ hds hd
  exact hsees.linked

/-- When all that is reached is sound, a module that is reached can be linked.  The
modules on the way to it pile up like those that a crawl has open, so the ways end. -/
theorem exists_linked_of_pile
    (h : ∀ p, Relation.ReflTransGen c.Imports c.start p → c.Sound p) {p : Path}
    {opened : List Path} (hacc : Acc (fun next opened => c.Opens opened next) (p :: opened))
    (hp : Relation.ReflTransGen c.Imports c.start p)
    (hopened : ∀ r ∈ opened,
      Relation.ReflTransGen c.Imports c.start r ∧ Relation.TransGen c.Imports r p) :
    ∃ m, m.path = p ∧ c.Sees m := by
  generalize hpile : p :: opened = pile at hacc
  induction hacc generalizing p opened with
  | intro pile _ ih =>
    subst hpile
    obtain ⟨outline, hsound⟩ := h p hp
    refine hsound.exists_linked (fun q hq => ?_) fun q hq => ?_
    · exact (h c.start .refl).text_of_transGen (.tail' hp hq)
    · have hways : ∀ r ∈ p :: opened,
          Relation.ReflTransGen c.Imports c.start r ∧ Relation.TransGen c.Imports r q :=
        List.forall_mem_cons.2 ⟨⟨hp, .single hq⟩, fun r hr =>
          ⟨(hopened r hr).1, (hopened r hr).2.tail hq⟩⟩
      have hnew : (p :: opened).any (·.same q) = false := by
        rw [List.any_eq_false]
        intro r hr
        obtain ⟨hreached, hway⟩ := hways r hr
        obtain ⟨_, hsound⟩ := h r hreached
        simp [hsound.acyclic q hway]
      exact ih _ (.imported hq hnew) (hp.tail hq) hways rfl

/-- When all that is reached is sound, the compilation succeeds. -/
theorem exists_result (h : ∀ p, Relation.ReflTransGen c.Imports c.start p → c.Sound p) :
    ∃ m, c.result = .ok m := by
  obtain ⟨m, hpath, hsees⟩ := exists_linked_of_pile h c.acc_opens .refl nofun
  obtain ⟨_, hstart⟩ := h c.start .refl
  -- along dependencies of `m` the texts are those of the compilation, which never comes back
  have hways : ∀ d, Relation.TransGen (DependsOn c.config c.tree) m d →
      Relation.TransGen c.Imports c.start d.path := by
    intro d hd
    induction hd with
    | single hdep => exact .single (hpath ▸ hsees.imports hdep)
    | @tail e f hreached hdep ih =>
      obtain ⟨_, -, hdep'⟩ := Relation.TransGen.tail'_iff.1 hreached
      have hseen : c.Sees e :=
        ⟨by rw [text_of_ne_start (hstart.acyclic _ ih), hdep'.onDisk.text], hdep'.linked⟩
      exact ih.tail (hseen.imports hdep)
  exact ⟨m, result_eq_ok_iff.2 ⟨hpath, hsees, fun d hd => hstart.acyclic _ (hways d hd)⟩⟩

/-! ## Exactness -/

/-- A compilation ends, succeeds exactly when all that it reaches is sound, and
compiles each module from the text that it should. -/
structure Exact (c : Compilation) : Prop where
  /-- Modules cannot be opened one on behalf of the other without end. -/
  ends : Acc (fun next opened => c.Opens opened next) [c.start]
  /-- With any larger budget the module or the fault is the same. -/
  unbounded : ∀ budget ≥ c.tree.fileCount, c.resultWithin budget = c.result
  /-- The compilation succeeds exactly when all that it reaches is sound. -/
  succeeds : (∃ m, c.result = .ok m) ↔
    ∀ p, Relation.ReflTransGen c.Imports c.start p → c.Sound p
  /-- The compiled module has the text of the buffer, and that of its file when there
  is none. -/
  source : ∀ m, c.result = .ok m → m.path = c.start ∧
    (c.buffer = some m.source ∨ c.buffer = none ∧ c.tree.readText c.start = .ok m.source)
  /-- All other modules that are reached are built in the crawl, from the texts of their
  files. -/
  disk : ∀ m, c.result = .ok m → ∃ memory,
    c.crawl c.tree.fileCount m.source = .ok (m, memory) ∧
    (∀ d ∈ memory, c.start.same d.path = false ∧ c.tree.readText d.path = .ok d.source) ∧
    ∀ q, Relation.TransGen c.Imports c.start q → ∃ d ∈ memory, d.path = q

end Compilation

/-- Every compilation ends, succeeds exactly when all that it reaches is sound, and
compiles each module from the text that it should. -/
theorem compilation_exact (c : Compilation) : c.Exact where
  ends := c.acc_opens
  unbounded budget hbudget := by
    have hcrawl : c.crawl budget = c.crawl c.tree.fileCount := by
      funext source
      exact congrFun (buildModule_congr (fun _ _ hat => load_of_le_budget
        (openedWithin_start c.tree c.start) hbudget _ hat) _ _) []
    rw [← c.resultWithin_fileCount, Compilation.resultWithin, hcrawl]
    rfl
  succeeds := ⟨fun ⟨_, h⟩ _ hp => Compilation.sound_of_result h hp, Compilation.exists_result⟩
  source m h := by
    obtain ⟨hpath, ⟨htext, -⟩, -⟩ := Compilation.result_eq_ok_iff.1 h
    rw [hpath] at htext
    exact ⟨hpath, Compilation.text_start_eq_ok_iff.1 htext⟩
  disk m h := by
    obtain ⟨hpath, -⟩ := Compilation.result_eq_ok_iff.1 h
    obtain ⟨memory, hbuild, hfinished, hreached⟩ := finished_of_compileModule h
    rw [hpath] at hbuild hfinished
    refine ⟨memory, hbuild, fun d hd => ?_, fun q hq => ?_⟩
    · exact ⟨hfinished.elsewhere d hd, (hfinished.settled d hd).2.text⟩
    · rw [← hpath] at hq
      obtain ⟨d, hd, hq⟩ := Compilation.exists_reached h .refl hq
      exact ⟨d, hreached d hd, hq⟩

end SymbolAtlas
