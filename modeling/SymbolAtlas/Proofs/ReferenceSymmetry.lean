import SymbolAtlas.Proofs.RenameReferences
import SymbolAtlas.Proofs.RenameSymmetry

/-!
# References of references

When references are searched at a caret and the search is repeated at one of the uses
that it found, the second search finds nothing new.  It finds the same when the climb
from the first name stays within the known files, since both climbs then have one end.
When the climb leaves the known files, each search starts from its own name instead and
forgets how far the climb has come.  Imports lead down from there but not up, so a search
at another module loses the module where the first search was made.

## Main Definitions

* `CaretAtUse`: a caret is at a use of a name in a known file.
* `StaysWithin`: the climb from a binding does not leave the known files.
* `SearchedFrom`: where the search for a binding starts.

## Main Statements

* `Linked.source_not_use`: what an aliased import mentions is no use of a name.
* `CaretAtUse.findReferences_eq`: what a search finds, and from where.
* `findReferences_of_reference`: a search at a place that a search has found.
* `findReferences_loses_references`: a search that does not find where it was found.
-/

namespace SymbolAtlas

variable {config : Config} {tree : FileTree} {w : Workspace} {root : Path}

/-! ## Uses belong to one name -/

/-- The name that an aliased import mentions is no use of a bound name. -/
theorem Linked.source_not_use {m : Module} (h : Linked config tree m) {s : ImportedSymbol}
    (hs : s ∈ m.table.imported) (haliased : s.aliased = true) (name : String) :
    s.source.span ∉ m.table.usesOf name := by
  intro huse
  cases h with
  | intro links _ =>
    obtain ⟨outline, hparse, -, hlinks⟩ := links
    obtain ⟨tokens, phrases, hlexed, hphrased, rfl⟩ := parse_eq_ok_iff.1 hparse
    obtain ⟨-, hidentifier⟩ := (hlinks.mem_usesOf_iff (nodup_identifiers hlexed hphrased)).1 huse
    obtain ⟨t, ht, hreference⟩ := exists_reference hidentifier
    obtain ⟨pair, hpair, item, hitem, symbol, -, rfl⟩ := hlinks.exists_item hs
    obtain ⟨t', ht', hrole⟩ := exists_role_of_item (List.of_mem_zip hpair).1 hitem
    -- one place has one token, which is a reference or an aliased name
    have halias : item.alias?.isSome = true := haliased
    rw [if_pos halias] at hrole
    have hspan : t'.identifier.span = t.identifier.span := by rw [ht', ht]; rfl
    cases eq_of_roleSpan hlexed hphrased hrole hreference hspan

/-- A use of a name belongs to the binding of the name. -/
theorem LocatedAt.eq_of_use {b : Binding} {m : Module} {name : String} {span : Span}
    (h : LocatedAt config tree w b m.path span)
    (hm : config.compileModule tree m.path none = .ok m) (huse : span ∈ m.table.usesOf name) :
    b = ⟨m.path, name⟩ := by
  obtain ⟨-, hlinked, -⟩ := linked_of_compileModule hm
  cases h with
  | home _ compiled module use =>
    obtain rfl := Except.ok.inj (hm.symm.trans compiled)
    obtain ⟨_, _, hindexes⟩ := hlinked.exists_indexesReferences
    have hname : b.name = name := by
      by_contra hne
      exact hindexes.disjoint b.name name hne span use huse
    rw [← hname, ← module]
  | aliased _ compiled imported aliased _ place =>
    obtain rfl := Except.ok.inj (hm.symm.trans compiled)
    rw [place] at huse
    exact absurd huse (hlinked.source_not_use imported aliased name)

/-! ## What a spread in a workspace lists -/

theorem RenameClass.trans {a b c : Binding} (hab : RenameClass config tree w a b)
    (hbc : RenameClass config tree w b c) : RenameClass config tree w a c := by
  induction hbc with
  | root => exact hab
  | step _ known compiled imported unaliased source ih =>
    exact .step ih known compiled imported unaliased source

section Spreads

variable {index : ImportIndex} {owner b : Binding} {d e m : Module}
  (hscan : Workspace.scan tree config.extension root = .ok w)
  (hindex : IndexesWorkspace config tree w index)

include hscan hindex

/-- The places that a spread lists in an indexed module are those of the rename class. -/
theorem mem_spread_pairs_iff (howner : Grounded config tree owner d) (hm : m ∈ index.modules)
    {span : Span} :
    (m.path, span) ∈ (index.spread owner).pairs ↔
      ∃ b, RenameClass config tree w owner b ∧ LocatedAt config tree w b m.path span := by
  rw [hindex.indexesLinked.mem_pairs_iff howner hm,
    mentions_spread_iff hscan hindex howner (hindex.linked m hm).2.2]

/-- A spread lists a use exactly when its name is in the rename class. -/
theorem mem_spread_pairs_of_use (howner : Grounded config tree owner d) (hm : m ∈ index.modules)
    {name : String} {span : Span} (huse : span ∈ m.table.usesOf name) :
    (m.path, span) ∈ (index.spread owner).pairs ↔
      RenameClass config tree w owner ⟨m.path, name⟩ := by
  obtain ⟨hlinked, hdisk, hknown⟩ := hindex.linked m hm
  have hcompile := compileModule_of_onDisk hlinked hdisk
  rw [mem_spread_pairs_iff hscan hindex howner hm]
  constructor
  · rintro ⟨b, hclass, hlocated⟩
    rwa [hlocated.eq_of_use hcompile huse] at hclass
  · intro hclass
    exact ⟨_, hclass, .home hknown hcompile rfl huse⟩

/-- A spread from a binding of the rename class lists no more than one from the
owner. -/
theorem spread_pairs_subset (howner : Grounded config tree owner d)
    (hb : Grounded config tree b e) (hclass : RenameClass config tree w owner b) :
    (index.spread b).pairs ⊆ (index.spread owner).pairs := by
  rintro ⟨p, span⟩ hplace
  obtain ⟨m, hm, rfl⟩ := hindex.indexesLinked.exists_of_mem_pairs hb hplace
  obtain ⟨c, hc, hlocated⟩ := (mem_spread_pairs_iff hscan hindex hb hm).1 hplace
  exact (mem_spread_pairs_iff hscan hindex howner hm).2 ⟨c, hclass.trans hc, hlocated⟩

end Spreads

/-! ## Climbs that stay within the known files -/

/-- The climb from a binding does not leave the known files. -/
def StaysWithin (config : Config) (tree : FileTree) (w : Workspace) (b : Binding) : Prop :=
  ∀ last, Relation.ReflTransGen (ClimbsWithin config tree w) b last → last.module ∈ w.modulePaths

/-- A climb that ends in a known file stays within the known files. -/
theorem staysWithin_of_end {b last : Binding}
    (hclimb : Relation.ReflTransGen (ClimbsWithin config tree w) b last)
    (hknown : last.module ∈ w.modulePaths) (hend : ∀ next, ¬ ClimbsWithin config tree w last next) :
    StaysWithin config tree w b := by
  intro c hc
  rcases hclimb.total_of_right_unique climbsWithin_rightUnique hc with hbetween | hbetween
  · rcases hbetween.cases_head with rfl | ⟨next, hnext, -⟩
    · exact hknown
    · exact absurd hnext (hend next)
  · rcases hbetween.cases_head with rfl | ⟨next, hnext, -⟩
    · exact hknown
    · exact hnext.1

theorem StaysWithin.of_climb {b c : Binding} (h : StaysWithin config tree w b)
    (hclimb : Relation.ReflTransGen (ClimbsWithin config tree w) b c) :
    StaysWithin config tree w c :=
  fun last hlast => h last (hclimb.trans hlast)

/-- Climbs do not lead back and forth between two modules. -/
theorem Grounded.eq_of_climbs {b c : Binding} {d e : Module} (hb : Grounded config tree b d)
    (hc : Grounded config tree c e)
    (hup : Relation.ReflTransGen (ClimbsWithin config tree w) b c)
    (hback : Relation.ReflTransGen (ClimbsWithin config tree w) c b) : d = e := by
  obtain ⟨-, e', hreach, he'⟩ := hb.climb_all hup
  obtain rfl := Except.ok.inj (he'.compiled.symm.trans hc.compiled)
  obtain ⟨-, d', hreach', hd'⟩ := hc.climb_all hback
  obtain rfl := Except.ok.inj (hd'.compiled.symm.trans hb.compiled)
  rcases Relation.reflTransGen_iff_eq_or_transGen.1 hreach with heq | htrans
  · exact heq.symm
  · exact absurd (htrans.trans_left hreach') hb.linked.acyclic

/-! ## What a search finds -/

/-- A caret is at a use of a name in a known file. -/
structure CaretAtUse (config : Config) (tree : FileTree) (w : Workspace) (file : Path)
    (line column : Nat) (m : Module) (word : Word) : Prop where
  compiled : config.compileModule tree file none = .ok m
  known : m.path ∈ w.modulePaths
  wordAt_eq : wordAt m.source line column = .ok word
  use : word.span ∈ m.table.usesOf word.text

/-- Where a search for a binding starts: at the end of the climb when that stays within
the known files, and otherwise at the binding itself. -/
def SearchedFrom (config : Config) (tree : FileTree) (w : Workspace) (b start : Binding) : Prop :=
  StaysWithin config tree w b ∧
      Relation.ReflTransGen (ClimbsWithin config tree w) b start ∧
      (∀ next, ¬ ClimbsWithin config tree w start next) ∨
    ¬ StaysWithin config tree w b ∧ start = b

theorem SearchedFrom.climbs {b start : Binding} (h : SearchedFrom config tree w b start) :
    Relation.ReflTransGen (ClimbsWithin config tree w) b start := by
  rcases h with ⟨-, hclimb, -⟩ | ⟨-, rfl⟩
  · exact hclimb
  · exact .refl

/-- When a climb leads to where another binding is searched from, both are searched from
there, or each is searched from itself. -/
theorem SearchedFrom.eq_or_own {b b' start start' : Binding}
    (h : SearchedFrom config tree w b start) (h' : SearchedFrom config tree w b' start')
    (hclimb : Relation.ReflTransGen (ClimbsWithin config tree w) b' start) :
    StaysWithin config tree w b ∧ start' = start ∨
      ¬ StaysWithin config tree w b ∧ start = b ∧ start' = b' := by
  rcases h with ⟨hstays, hup, hend⟩ | ⟨hleaves, rfl⟩
  · rcases h' with ⟨-, hup', hend'⟩ | ⟨hleaves', -⟩
    · exact .inl ⟨hstays, climb_end_unique hup' hend' hclimb hend⟩
    · exact absurd (staysWithin_of_end hclimb (hstays start hup) hend) hleaves'
  · rcases h' with ⟨hstays', -⟩ | ⟨-, rfl⟩
    · exact absurd (hstays'.of_climb hclimb) hleaves
    · exact .inr ⟨hleaves, rfl, rfl⟩

namespace CaretAtUse

variable {file : Path} {line column : Nat} {m : Module} {word : Word}

theorem grounded (h : CaretAtUse config tree w file line column m word) :
    Grounded config tree ⟨m.path, word.text⟩ m := by
  obtain ⟨-, hlinked, -, hdisk⟩ := linked_of_compileModule h.compiled
  exact ⟨hlinked, hdisk rfl, rfl, hlinked.mem_names_of_use h.use⟩

/-- When all known files compile, a search spreads from where the name is searched
from. -/
theorem findReferences_eq (h : CaretAtUse config tree w file line column m word)
    (hscan : Workspace.scan tree config.extension root = .ok w)
    (hall : w.AllCompile config tree) :
    ∃ index start d, IndexesWorkspace config tree w index ∧ m ∈ index.modules ∧
      SearchedFrom config tree w ⟨m.path, word.text⟩ start ∧ Grounded config tree start d ∧
      (findReferences config.compiler config file line column root tree).1 =
        .ok (index.spread start).pairs := by
  obtain ⟨modules, hmodules, hmem⟩ := allModules_of_compile word.text hall
  have hgrounded := h.grounded
  have hcompile : config.compileModule tree m.path none = .ok m := hgrounded.compiled
  have hindex := indexesWorkspace_ofModules hscan hmem ((hmem m).2 ⟨m.path, h.known, hcompile⟩)
  have hname : m.boundNameAt? line column = some word.text := by
    rw [Module.boundNameAt?, h.wordAt_eq]
    exact if_pos (SymbolTable.contains_iff.2 hgrounded.bound)
  have hfound : m ∈ (ImportIndex.ofModules (modules ++ [m])).modules :=
    (hindex.mem_modules m).2 ⟨m.path, h.known, hcompile⟩
  obtain ⟨last, d, hclimb, hlast, ⟨hknown, hend, hroot⟩ | ⟨hunknown, hroot⟩⟩ :=
    hgrounded.rootBinding_ends hindex
  · refine ⟨_, last, d, hindex, hfound, .inl ⟨staysWithin_of_end hclimb hknown hend, hclimb, hend⟩,
      hlast, ?_⟩
    simp only [SymbolAtlas.findReferences_eq, h.compiled, hname, hscan,
      compiledModules_of_allModules hmodules, referencesIn, hroot]
  · refine ⟨_, _, m, hindex, hfound, .inr ⟨fun hstays => hunknown (hstays last hclimb), rfl⟩,
      hgrounded, ?_⟩
    simp only [SymbolAtlas.findReferences_eq, h.compiled, hname, hscan,
      compiledModules_of_allModules hmodules, referencesIn, hroot]

end CaretAtUse

/-- A search that is repeated at a use of a name that it has found finds nothing new,
and what it found before exactly when it is repeated in the same module or the climb
from the first name stays within the known files. -/
theorem findReferences_of_reference
    (hscan : Workspace.scan tree config.extension root = .ok w) (hall : w.AllCompile config tree)
    {file file' : Path} {line line' column column' : Nat} {m m' : Module} {word word' : Word}
    (hcaret : CaretAtUse config tree w file line column m word)
    (hcaret' : CaretAtUse config tree w file' line' column' m' word')
    {refs : List (Path × Span)}
    (hrefs : (findReferences config.compiler config file line column root tree).1 = .ok refs)
    (hmem : (m'.path, word'.span) ∈ refs) :
    word'.text = word.text ∧ ∃ refs',
      (findReferences config.compiler config file' line' column' root tree).1 = .ok refs' ∧
      refs' ⊆ refs ∧
      (refs' = refs ↔ m'.path = m.path ∨ StaysWithin config tree w ⟨m.path, word.text⟩) := by
  obtain ⟨index, start, d, hindex, hm, hstart, hgrounded, hfound⟩ :=
    hcaret.findReferences_eq hscan hall
  obtain ⟨index', start', d', hindex', hm', hstart', hgrounded', hfound'⟩ :=
    hcaret'.findReferences_eq hscan hall
  obtain rfl := Except.ok.inj (hfound.symm.trans hrefs)
  have hindexed : m' ∈ index.modules := (hindex.mem_modules m').2 ((hindex'.mem_modules m').1 hm')
  -- the name at the second caret is in the rename class that the first search found
  have hclass := (mem_spread_pairs_of_use hscan hindex hgrounded hindexed hcaret'.use).1 hmem
  have hname : word'.text = word.text :=
    (hclass.grounded hscan hgrounded).1.trans (hcaret.grounded.climb_all hstart.climbs).1
  rw [← spread_eq_of_indexesWorkspace hscan hindex hindex' hgrounded'] at hfound'
  refine ⟨hname, _, hfound', ?_⟩
  rcases hstart.eq_or_own hstart' hclass.climbs with ⟨hstays, rfl⟩ | ⟨hleaves, rfl, rfl⟩
  · exact ⟨List.Subset.refl _, iff_of_true rfl (.inr hstays)⟩
  · refine ⟨spread_pairs_subset hscan hindex hgrounded hgrounded' hclass, ?_, ?_⟩
    · -- the second search finds the first caret only if climbs lead from each name to the other
      intro heq
      have hfirst := (mem_spread_pairs_of_use hscan hindex hgrounded hm hcaret.use).2 .root
      rw [← heq, mem_spread_pairs_of_use hscan hindex hgrounded' hm hcaret.use] at hfirst
      left
      rw [hcaret'.grounded.eq_of_climbs hcaret.grounded hclass.climbs hfirst.climbs]
    · rintro (hpath | hstays)
      · rw [hpath, hname]
      · exact absurd hstays hleaves

/-- A module that takes a name from a library, and one that takes it from there. -/
def libraryTree : FileTree :=
  (((FileTree.bare ⟨"/w"⟩).write ⟨"/w/lib/l.ol"⟩ (.text "type Shape")).write ⟨"/w/ws/a.ol"⟩
    (.text "from l import Shape")).write ⟨"/w/ws/b.ol"⟩ (.text "from .a import Shape")

/-- The library is outside of the workspace. -/
def libraryConfig : Config := Config.default.addIncludePaths [⟨"/w/lib"⟩]

/-- The workspace of the two importing modules. -/
def libraryWorkspace : Workspace :=
  ⟨⟨"/w/ws"⟩, .insertAll .empty [⟨"/w/ws/a.ol"⟩, ⟨"/w/ws/b.ol"⟩]⟩

/-- The module that imports from the library, compiled. -/
def libraryImporter : Module :=
  { path := ⟨"/w/ws/a.ol"⟩
    source := "from l import Shape"
    table :=
      { owner := ⟨"/w/ws/a.ol"⟩
        declared := []
        imported := [⟨"Shape", ⟨0, 14, 19⟩, ⟨⟨"/w/lib/l.ol"⟩, "Shape", ⟨0, 14, 19⟩⟩,
          ⟨⟨"/w/lib/l.ol"⟩, "Shape", .type, ⟨0, 5, 10⟩⟩, false⟩]
        uses := [("Shape", [⟨0, 14, 19⟩])] } }

/-- The module that imports from the importing module, compiled. -/
def libraryReader : Module :=
  { path := ⟨"/w/ws/b.ol"⟩
    source := "from .a import Shape"
    table :=
      { owner := ⟨"/w/ws/b.ol"⟩
        declared := []
        imported := [⟨"Shape", ⟨0, 15, 20⟩, ⟨⟨"/w/ws/a.ol"⟩, "Shape", ⟨0, 15, 20⟩⟩,
          ⟨⟨"/w/lib/l.ol"⟩, "Shape", .type, ⟨0, 5, 10⟩⟩, false⟩]
        uses := [("Shape", [⟨0, 15, 20⟩])] } }

theorem scan_libraryTree :
    Workspace.scan libraryTree libraryConfig.extension ⟨"/w/ws"⟩ = .ok libraryWorkspace :=
  eq_ok_of_toOption (by decide +kernel)

theorem caretAtUse_libraryImporter :
    CaretAtUse libraryConfig libraryTree libraryWorkspace ⟨"/w/ws/a.ol"⟩ 0 15 libraryImporter
      ⟨"Shape", ⟨0, 14, 19⟩⟩ where
  compiled := eq_ok_of_toOption (by decide +kernel)
  known := by decide +kernel
  wordAt_eq := eq_ok_of_toOption (by decide +kernel)
  use := by decide

theorem caretAtUse_libraryReader :
    CaretAtUse libraryConfig libraryTree libraryWorkspace ⟨"/w/ws/b.ol"⟩ 0 16 libraryReader
      ⟨"Shape", ⟨0, 15, 20⟩⟩ where
  compiled := eq_ok_of_toOption (by decide +kernel)
  known := by decide +kernel
  wordAt_eq := eq_ok_of_toOption (by decide +kernel)
  use := by decide

theorem modulePaths_libraryWorkspace :
    libraryWorkspace.modulePaths = [⟨"/w/ws/a.ol"⟩, ⟨"/w/ws/b.ol"⟩] := by
  decide +kernel

theorem allCompile_libraryWorkspace : libraryWorkspace.AllCompile libraryConfig libraryTree := by
  intro p hp
  rw [modulePaths_libraryWorkspace, List.mem_pair] at hp
  rcases hp with rfl | rfl
  · exact ⟨libraryImporter, caretAtUse_libraryImporter.compiled⟩
  · exact ⟨libraryReader, caretAtUse_libraryReader.compiled⟩

theorem compiledModules_libraryWorkspace :
    compiledModules (compileEach libraryConfig libraryTree libraryWorkspace.modulePaths) =
      [libraryImporter, libraryReader] := by
  simp [modulePaths_libraryWorkspace, compileEach, compiledModules, Except.toOption,
    caretAtUse_libraryImporter.compiled, caretAtUse_libraryReader.compiled]

theorem findReferences_libraryImporter :
    (findReferences libraryConfig.compiler libraryConfig ⟨"/w/ws/a.ol"⟩ 0 15 ⟨"/w/ws"⟩
      libraryTree).1 = .ok [(⟨"/w/ws/a.ol"⟩, ⟨0, 14, 19⟩), (⟨"/w/ws/b.ol"⟩, ⟨0, 15, 20⟩)] := by
  have hname : libraryImporter.boundNameAt? 0 15 = some "Shape" := by decide +kernel
  simp only [findReferences_eq, caretAtUse_libraryImporter.compiled, hname, scan_libraryTree,
    compiledModules_libraryWorkspace]
  exact congrArg Except.ok (by decide +kernel)

theorem findReferences_libraryReader :
    (findReferences libraryConfig.compiler libraryConfig ⟨"/w/ws/b.ol"⟩ 0 16 ⟨"/w/ws"⟩
      libraryTree).1 = .ok [(⟨"/w/ws/b.ol"⟩, ⟨0, 15, 20⟩)] := by
  have hname : libraryReader.boundNameAt? 0 16 = some "Shape" := by decide +kernel
  simp only [findReferences_eq, caretAtUse_libraryReader.compiled, hname, scan_libraryTree,
    compiledModules_libraryWorkspace]
  exact congrArg Except.ok (by decide +kernel)

/-- The second search finds nothing new, and not what the first search found, since the
climb leads to the library. -/
theorem findReferences_of_reference_library :
    ∃ refs, (findReferences libraryConfig.compiler libraryConfig ⟨"/w/ws/b.ol"⟩ 0 16 ⟨"/w/ws"⟩
        libraryTree).1 = .ok refs ∧
      refs ⊆ [(⟨"/w/ws/a.ol"⟩, ⟨0, 14, 19⟩), (⟨"/w/ws/b.ol"⟩, ⟨0, 15, 20⟩)] ∧
      (refs = [(⟨"/w/ws/a.ol"⟩, ⟨0, 14, 19⟩), (⟨"/w/ws/b.ol"⟩, ⟨0, 15, 20⟩)] ↔
        libraryReader.path = libraryImporter.path ∨
          StaysWithin libraryConfig libraryTree libraryWorkspace ⟨⟨"/w/ws/a.ol"⟩, "Shape"⟩) :=
  (findReferences_of_reference scan_libraryTree allCompile_libraryWorkspace
    caretAtUse_libraryImporter caretAtUse_libraryReader findReferences_libraryImporter
    (List.mem_cons_of_mem _ List.mem_cons_self)).2

/-- A search at a use that a search has found may not find what that found. -/
theorem findReferences_loses_references :
    ¬ ∀ (config : Config) (tree : FileTree) (root : Path) (w : Workspace) (file file' : Path)
        (line line' column column' : Nat) (m m' : Module) (word word' : Word)
        (refs : List (Path × Span)),
      Workspace.scan tree config.extension root = .ok w → w.AllCompile config tree →
      CaretAtUse config tree w file line column m word →
      CaretAtUse config tree w file' line' column' m' word' →
      (findReferences config.compiler config file line column root tree).1 = .ok refs →
      (m'.path, word'.span) ∈ refs → word'.text = word.text →
      (findReferences config.compiler config file' line' column' root tree).1 = .ok refs := by
  intro hsame
  have hboth := hsame libraryConfig libraryTree ⟨"/w/ws"⟩ libraryWorkspace ⟨"/w/ws/a.ol"⟩
    ⟨"/w/ws/b.ol"⟩ 0 0 15 16 libraryImporter libraryReader _ _ _ scan_libraryTree
    allCompile_libraryWorkspace caretAtUse_libraryImporter caretAtUse_libraryReader
    findReferences_libraryImporter (List.mem_cons_of_mem _ List.mem_cons_self) rfl
  rw [findReferences_libraryReader] at hboth
  simp at hboth

end SymbolAtlas
