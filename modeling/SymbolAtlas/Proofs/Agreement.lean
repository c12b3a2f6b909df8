import SymbolAtlas.Proofs.WorkspaceIndex

/-!
# Modules agree with their sources

A module is compiled together with all that it imports, in one crawl that remembers
what it has finished and what it is still building.  Requests compile the same
modules one by one.  Both give the same: what a crawl loads is what compiling the
file alone gives, and each import of a compiled module says of its source what that
module, compiled alone, says itself.  The source pointers of imports can therefore
be followed from module to module, and since no module imports itself they end at a
declaration, which is the origin of the import.

## Main Definitions

* `PointsTo`, `DeclaredAs`: one step along source pointers, and where they end.
* `CrawlMemory`: the memories that crawls go through.
* `AgreesAlone`: the imports of a module agree with the modules compiled alone.

## Main Statements

* `Grounded.exists_declaration`: source pointers end at the origin.
* `CrawlMemory.settled`: a crawl remembers nothing but what stands on disk.
* `compileModule_agreesAlone`: the imports of a compiled module agree.
-/

namespace SymbolAtlas

variable {config : Config} {tree : FileTree}

/-! ## Following source pointers -/

/-- The source pointer of an import leads from the name that it binds to the name
that it takes, as the module says that is compiled alone. -/
def PointsTo (config : Config) (tree : FileTree) (b next : Binding) : Prop :=
  ∃ d s, config.compileModule tree b.module none = .ok d ∧
    d.table.lookup b.name = some (.imported s) ∧ next = s.sourceBinding

/-- A name is declared in its module, compiled alone, and this is its origin. -/
def DeclaredAs (config : Config) (tree : FileTree) (b : Binding) (origin : Origin) : Prop :=
  ∃ d s, config.compileModule tree b.module none = .ok d ∧ d.path = b.module ∧
    d.table.lookup b.name = some (.declared s) ∧ origin = ⟨b.module, b.name, s.kind, s.span⟩

/-- Source pointers lead from a binding to the declaration that is its origin. -/
theorem Grounded.exists_declaration {b : Binding} {d : Module} (h : Grounded config tree b d)
    {symbol : Symbol} (hsymbol : d.table.lookup b.name = some symbol) :
    ∃ last, Relation.ReflTransGen (PointsTo config tree) b last ∧
      DeclaredAs config tree last (symbol.originIn d.path) := by
  -- each step leads to a module that is imported, and chains of imports end
  have hacc := h.linked.acc
  induction hacc generalizing b symbol with
  | intro d _ ih =>
    obtain ⟨hname, -⟩ := SymbolTable.lookup_eq_some hsymbol
    cases symbol with
    | declared s =>
      refine ⟨b, .refl, d, s, h.compiled, h.path, hsymbol, ?_⟩
      rw [← h.path, ← hname]
      rfl
    | imported s =>
      have hs := (mem_imported_of_lookup hsymbol).1
      obtain ⟨e, symbol', hdep, hsource, hsymbol', horigin⟩ :=
        h.linked.exists_grounded_source hs
      obtain ⟨last, hfollow, hdeclared⟩ := ih e hdep hsource hsymbol'
      refine ⟨last, .head ⟨d, s, h.compiled, hsymbol, rfl⟩ hfollow, ?_⟩
      show DeclaredAs config tree last s.origin
      rw [horigin]
      exact hdeclared

/-! ## What a crawl remembers -/

/-- The memories that crawls go through: a crawl starts with none and loads one file
after the other, whatever modules are open at the time. -/
inductive CrawlMemory (config : Config) (tree : FileTree) : List Module → Prop where
  | nil : CrawlMemory config tree []
  | load {budget : Nat} {opened : List Path} {importer file : Path} {memory memory' : List Module}
      {d : Module} (earlier : CrawlMemory config tree memory)
      (exists_file : tree.isFile file = true)
      (loaded : load config tree budget opened importer (tree.canonical file) memory =
        .ok (d, memory')) : CrawlMemory config tree memory'

/-- A file that is loaded in a crawl is in memory from then on, by its canonical
path. -/
theorem mem_of_load {budget : Nat} {opened : List Path} {importer file : Path}
    {memory memory' : List Module} {d : Module} (hfile : tree.isFile file = true)
    (h : load config tree budget opened importer (tree.canonical file) memory = .ok (d, memory'))
    (hmemory : Settled config tree memory) :
    d.path = tree.canonical file ∧ d ∈ memory' ∧ Settled config tree memory' := by
  obtain ⟨names, contents, hnames, hat⟩ := FileTree.exists_names_of_isFile hfile
  rw [hnames] at h ⊢
  have hkeeps : Keeps tree (Settled config tree) (load config tree budget opened importer) :=
    load_sound (crawlInvariant_settled config tree fun _ => True) budget opened importer
      fun _ _ => trivial
  obtain ⟨hpath, hmem, -, hmemory'⟩ := hkeeps (Option.isSome_of_eq_some hat) h hmemory
  exact ⟨hpath, hmem, hmemory'⟩

/-- What a crawl remembers is linked and on disk. -/
theorem CrawlMemory.settled {memory : List Module} (h : CrawlMemory config tree memory) :
    Settled config tree memory := by
  induction h with
  | nil => exact List.forall_mem_nil _
  | load _ hfile hload ih => exact (mem_of_load hfile hload ih).2.2

theorem Settled.compiled {memory : List Module} (h : Settled config tree memory) {d : Module}
    (hd : d ∈ memory) : config.compileModule tree d.path none = .ok d := by
  obtain ⟨hlinked, hdisk⟩ := h d hd
  exact compileModule_of_onDisk hlinked hdisk

/-! ## Agreement -/

/-- The imports of a module agree with the modules that are compiled alone, each
from its file, and so does all that a crawl loads. -/
structure AgreesAlone (config : Config) (tree : FileTree) (m : Module) : Prop where
  /-- An import is taken from a module that compiles alone, at the path it says.  The
  name is bound there, and the import has the origin that it has there. -/
  source : ∀ s ∈ m.table.imported, ∃ d symbol,
    config.compileModule tree s.source.module none = .ok d ∧ d.path = s.source.module ∧
      d.table.lookup s.source.name = some symbol ∧
      match symbol with
      | .declared t => s.origin = ⟨d.path, t.name, t.kind, t.span⟩
      | .imported t => s.origin = t.origin
  /-- Source pointers lead, whether or not imports have aliases, to the declaration
  that is the origin. -/
  declaration : ∀ s ∈ m.table.imported, ∃ last,
    Relation.ReflTransGen (PointsTo config tree) s.sourceBinding last ∧
      DeclaredAs config tree last s.origin
  /-- Whatever a crawl remembers and whatever is open, a file that it loads gives the
  module that compiling it alone gives. -/
  loaded : ∀ {budget opened importer file memory d memory'}, CrawlMemory config tree memory →
    tree.isFile file = true →
    load config tree budget opened importer (tree.canonical file) memory = .ok (d, memory') →
    config.compileModule tree (tree.canonical file) none = .ok d
  /-- A crawl remembers of each module what compiling it alone gives. -/
  remembered : ∀ {memory}, CrawlMemory config tree memory → ∀ d ∈ memory,
    config.compileModule tree d.path none = .ok d

/-- The imports of a compiled module agree with the modules compiled alone, whether
or not a buffer was given for it. -/
theorem compileModule_agreesAlone {file : Path} {buffer : Option String} {m : Module}
    (h : config.compileModule tree file buffer = .ok m) : AgreesAlone config tree m where
  source s hs := by
    obtain ⟨-, hlinked, -⟩ := linked_of_compileModule h
    obtain ⟨d, symbol, hdep, hpath, hsymbol, horigin⟩ := hlinked.exists_source hs
    refine ⟨d, symbol, ?_, hpath, hsymbol, ?_⟩
    · rw [← hpath]
      exact compileModule_of_onDisk hdep.linked hdep.onDisk
    · cases symbol with
      | declared t => exact horigin
      | imported t => exact horigin
  declaration s hs := by
    obtain ⟨-, hlinked, -⟩ := linked_of_compileModule h
    obtain ⟨d, symbol, hdep, hpath, hsymbol, horigin⟩ := hlinked.exists_source hs
    have hsource : Grounded config tree s.sourceBinding d :=
      ⟨hdep.linked, hdep.onDisk, hpath,
        SymbolTable.isSome_lookup_iff.1 (Option.isSome_of_eq_some hsymbol)⟩
    rw [horigin]
    exact hsource.exists_declaration hsymbol
  loaded hmemory hfile hload := by
    obtain ⟨hpath, hd, hmemory'⟩ := mem_of_load hfile hload hmemory.settled
    rw [← hpath]
    exact hmemory'.compiled hd
  remembered hmemory d hd := hmemory.settled.compiled hd

/-- The module that takes a name through the importing module of `aliasTree`, and
its origin directly, compiled from a buffer. -/
def diamondModule : Module :=
  { path := ⟨"/w/c.ol"⟩
    source := "from .b import S\nfrom .a import Shape"
    table :=
      { owner := ⟨"/w/c.ol"⟩
        declared := []
        imported := [⟨"S", ⟨0, 15, 16⟩, ⟨⟨"/w/b.ol"⟩, "S", ⟨0, 15, 16⟩⟩,
            ⟨⟨"/w/a.ol"⟩, "Shape", .type, ⟨0, 5, 10⟩⟩, false⟩,
          ⟨"Shape", ⟨1, 15, 20⟩, ⟨⟨"/w/a.ol"⟩, "Shape", ⟨1, 15, 20⟩⟩,
            ⟨⟨"/w/a.ol"⟩, "Shape", .type, ⟨0, 5, 10⟩⟩, false⟩]
        uses := [("S", [⟨0, 15, 16⟩]), ("Shape", [⟨1, 15, 20⟩])] } }

/-- Both imports agree, the one through an alias and the one that is loaded from
memory. -/
theorem compileModule_agreesAlone_diamond :
    Config.default.compileModule aliasTree ⟨"/w/c.ol"⟩ (some diamondModule.source) =
        .ok diamondModule ∧
      AgreesAlone .default aliasTree diamondModule := by
  have hcompile : Config.default.compileModule aliasTree ⟨"/w/c.ol"⟩
      (some diamondModule.source) = .ok diamondModule := eq_ok_of_toOption (by decide +kernel)
  exact ⟨hcompile, compileModule_agreesAlone hcompile⟩

end SymbolAtlas
