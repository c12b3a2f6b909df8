import SymbolAtlas.Proofs.LocalCompilation
import SymbolAtlas.Proofs.RenameVerdict
import SymbolAtlas.Request.Search

/-!
# Searching a workspace with broken modules

A search lists each known module that compiles, in path order and once, whether or not
anything in it matches.  A module that does not compile is left out and hides no other one.
So a change in one file, such as one that breaks it, can only touch the entries of this file
and of the modules that reach it along import statements.

## Main Definitions

* `searchEntry`: the entry of one module.
* `ListsCompiled`: the entries that a search lists.

## Main Statements

* `searchWorkspace_eq`: what a search lists, module by module.
* `compilation_local`: changed contents count only where they are reached.
-/

namespace SymbolAtlas

/-- The entry of a module in a search, if it compiles. -/
def searchEntry (config : Config) (tree : FileTree) (query : String) (p : Path) :
    Option (Path × List SymbolMatch) :=
  (config.compileModule tree p none).toOption.map fun m => (p, m.matching query)

theorem mem_searchEntry {config : Config} {tree : FileTree} {query : String} {p q : Path}
    {symbols : List SymbolMatch} :
    (q, symbols) ∈ searchEntry config tree query p ↔
      q = p ∧ ∃ m, config.compileModule tree p none = .ok m ∧ symbols = m.matching query := by
  unfold searchEntry
  cases config.compileModule tree p none with
  | error e => simp [Except.toOption]
  | ok m => simp [Except.toOption, eq_comm]

/-- A search lists the entries of the known modules, one after the other. -/
theorem searchWorkspace_eq (config : Config) (tree : FileTree) (root : Path) (query : String) :
    (searchWorkspace config.compiler config root query tree).1 =
      match Workspace.scan tree config.extension root with
      | .error _ => []
      | .ok w => w.modulePaths.filterMap (searchEntry config tree query) := by
  have htree : config.compiler.currentTree tree = (tree, tree) := rfl
  simp only [searchWorkspace, stateM_bind_apply, htree]
  cases hscan : Workspace.scan tree config.extension root with
  | error e => rfl
  | ok w =>
    simp only [stateM_bind_apply, stateM_pure_apply, loadAll_compiler]
    rw [compiledModules, compileEach, List.filterMap_map, List.map_filterMap]
    apply List.filterMap_congr
    intro p hp
    show (config.compileModule tree p none).toOption.map _ = _
    unfold searchEntry
    cases hcompile : config.compileModule tree p none with
    | error e => rfl
    | ok m =>
      obtain ⟨hpath, -⟩ := Workspace.compiled_of_mem_modulePaths hscan hp hcompile
      show some (m.path, m.matching query) = some (p, m.matching query)
      rw [hpath]

/-- The entries that a search lists: each known module that compiles is there once, in path
order. -/
structure ListsCompiled (config : Config) (tree : FileTree) (root : Path) (query : String)
    (result : List (Path × List SymbolMatch)) : Prop where
  ordered : result.Pairwise fun a b => a.1.before b.1 = true
  mem_iff : ∀ p symbols, (p, symbols) ∈ result ↔
    ∃ w, Workspace.scan tree config.extension root = .ok w ∧ p ∈ w.modulePaths ∧
      ∃ m, config.compileModule tree p none = .ok m ∧ symbols = m.matching query

theorem listsCompiled (config : Config) (tree : FileTree) (root : Path) (query : String) :
    ListsCompiled config tree root query
      (searchWorkspace config.compiler config root query tree).1 := by
  rw [searchWorkspace_eq]
  cases hscan : Workspace.scan tree config.extension root with
  | error e =>
    refine ⟨.nil, fun p symbols => ⟨nofun, ?_⟩⟩
    rintro ⟨w, hw, -⟩
    rw [hscan] at hw
    cases hw
  | ok w =>
    refine ⟨?_, fun p symbols => ⟨?_, ?_⟩⟩
    · refine (Workspace.pairwise_modulePaths w).filterMap _ ?_
      rintro p q hpq ⟨a, symbols⟩ ha ⟨b, symbols'⟩ hb
      rw [(mem_searchEntry.1 ha).1, (mem_searchEntry.1 hb).1]
      exact hpq
    · intro hmem
      obtain ⟨q, hq, hentry⟩ := List.mem_filterMap.1 hmem
      obtain ⟨rfl, hcompiled⟩ := mem_searchEntry.1 hentry
      exact ⟨w, hscan, hq, hcompiled⟩
    · rintro ⟨w', hw', hp, hcompiled⟩
      obtain rfl : w = w' := Except.ok.inj (hscan.symm.trans hw')
      exact List.mem_filterMap.2 ⟨p, hp, mem_searchEntry.2 ⟨rfl, hcompiled⟩⟩

/-- Changed contents count only where they are reached.  A compilation for which a file does
not count gives the same module or the same fault when the file has other contents; a search
lists each known module that compiles; and its entries change only for the modules that reach
the file. -/
theorem compilation_local (config : Config) (tree : FileTree) (g : Path) (contents : Contents) :
    (∀ file buffer, Compilation.Spares ⟨config, tree, file, buffer⟩ g →
      config.compileModule (tree.rewrite g contents) file buffer =
        config.compileModule tree file buffer) ∧
    ∀ root query,
      ListsCompiled config tree root query
        (searchWorkspace config.compiler config root query tree).1 ∧
      ∀ p symbols, ¬ Compilation.Reaches ⟨config, tree, p, none⟩ (tree.canonical g) →
        ((p, symbols) ∈ (searchWorkspace config.compiler config root query
            (tree.rewrite g contents)).1 ↔
          (p, symbols) ∈ (searchWorkspace config.compiler config root query tree).1) := by
  have hcompile : ∀ file buffer, Compilation.Spares ⟨config, tree, file, buffer⟩ g →
      config.compileModule (tree.rewrite g contents) file buffer =
        config.compileModule tree file buffer :=
    fun _ _ hspares => hspares.result_eq contents
  refine ⟨hcompile, fun root query => ⟨listsCompiled config tree root query, ?_⟩⟩
  intro p symbols hunreached
  rw [(listsCompiled _ _ _ _).mem_iff, (listsCompiled _ _ _ _).mem_iff,
    hcompile p none (.inl hunreached)]
  have hscan : Workspace.scan (tree.rewrite g contents) config.extension root =
      Workspace.scan tree config.extension root := Workspace.scan_mapContents _ _ _ _
  rw [hscan]

/-- A module, one that imports it, and one by itself. -/
def brokenTree : FileTree :=
  (((FileTree.bare ⟨"/w"⟩).write ⟨"/w/a.ol"⟩ (.text "type A")).write ⟨"/w/b.ol"⟩
    (.text "from .a import A\ntype B {A x}")).write ⟨"/w/c.ol"⟩ (.text "type C")

/-- When the first module is broken, the one that imports it goes with it, and the third one
stays as it is. -/
theorem compilation_local_broken :
    (searchWorkspace Config.default.compiler .default ⟨"/w"⟩ "B" brokenTree).1 =
        [(⟨"/w/a.ol"⟩, []), (⟨"/w/b.ol"⟩, [⟨"B", ⟨1, 5, 6⟩, .type, false⟩]), (⟨"/w/c.ol"⟩, [])] ∧
      (searchWorkspace Config.default.compiler .default ⟨"/w"⟩ "B"
        (brokenTree.rewrite ⟨"/w/a.ol"⟩ (.text "type"))).1 = [(⟨"/w/c.ol"⟩, [])] ∧
      Config.default.compileModule (brokenTree.rewrite ⟨"/w/a.ol"⟩ (.text "type"))
          ⟨"/w/c.ol"⟩ none =
        Config.default.compileModule brokenTree ⟨"/w/c.ol"⟩ none := by
  have hunreached : ¬ Compilation.Reaches ⟨.default, brokenTree, ⟨"/w/c.ol"⟩, none⟩
      (brokenTree.canonical ⟨"/w/a.ol"⟩) := by
    intro hreaches
    rcases Relation.ReflTransGen.cases_head hreaches with hstart | ⟨q, himports, -⟩
    · exact absurd hstart (by decide +kernel)
    · obtain ⟨outline, ⟨source, htext, hparse⟩, s, hs, -⟩ := himports
      have hsource : Compilation.text ⟨.default, brokenTree, ⟨"/w/c.ol"⟩, none⟩
          (Compilation.start ⟨.default, brokenTree, ⟨"/w/c.ol"⟩, none⟩) = .ok "type C" :=
        eq_ok_of_toOption (by decide +kernel)
      obtain rfl : "type C" = source := Except.ok.inj (hsource.symm.trans htext)
      have himports : (Outline.parse "type C").toOption.map (·.imports) = some [] := by
        decide +kernel
      rw [hparse] at himports
      have hnone : outline.imports = [] := Option.some.inj himports
      rw [hnone] at hs
      cases hs
  obtain ⟨hcompile, -⟩ := compilation_local .default brokenTree ⟨"/w/a.ol"⟩ (.text "type")
  exact ⟨by decide +kernel, by decide +kernel, hcompile ⟨"/w/c.ol"⟩ none (.inl hunreached)⟩

end SymbolAtlas
