import SymbolAtlas.Proofs.RenameReach
import SymbolAtlas.Request.References

/-!
# Finding references agrees with renaming

A rename and a search for references ask the same index the same question, but they
come to it on different ways.  A rename reads the text under the caret from the file
as it is spelled, the search has it from the compiled module.  A rename gives up when
a module does not compile or the owner of the name is missing, where the search makes
do with what there is.  In a tree that does not change, whenever a rename has a plan
with edits, the search finds exactly the places of the plan.

## Main Definitions

* `RenamePlan.places`: the places that a plan edits, one by one.
* `PlaceBefore`: places by module and then by span.

## Main Statements

* `FileTree.readText_canonical`: a file has one text under all its spellings.
* `compiledModules_of_allModules`: when no module is at fault, none is left out.
* `exists_word_of_planRename`: a plan with edits is a plan for the word under the caret.
* `findReferences_of_planRename`: the search finds the places of the plan.
-/

namespace SymbolAtlas

/-- The places that a plan edits, module by module. -/
def RenamePlan.places (plan : RenamePlan) : List (Path × Span) :=
  plan.edits.flatMap fun entry => entry.2.map fun edit => (entry.1, edit.span)

/-- One place comes before another: in an earlier module, or earlier in the same one. -/
def PlaceBefore (a b : Path × Span) : Prop :=
  a.1.before b.1 = true ∨ a.1 = b.1 ∧ a.2.before b.2 = true

theorem PlaceBefore.ne {a b : Path × Span} (h : PlaceBefore a b) : a ≠ b := by
  rintro rfl
  rcases h with h | ⟨-, h⟩
  · simp [Path.before_irrefl] at h
  · simp [linearlyOrders_span.irrefl] at h

/-! ## The places of a listing -/

/-- The edits for some locations are at these locations. -/
theorem places_editsAt (l : Locations) (name : String) :
    (RenamePlan.mk (l.entries.map (editsAt name))).places = l.pairs := by
  simp only [RenamePlan.places, Locations.pairs, List.flatMap_map, editsAt, List.map_map]
  rfl

/-- Locations in order come one after the other. -/
theorem Locations.InOrder.pairwise_pairs {l : Locations} (h : l.InOrder) :
    l.pairs.Pairwise PlaceBefore := by
  refine List.pairwise_flatMap.2 ⟨fun entry hentry => ?_, h.1.imp fun {a b} hbefore => ?_⟩
  · exact List.pairwise_map.2 ((h.2 entry hentry).imp fun hspan => .inr ⟨rfl, hspan⟩)
  · intro first hfirst second hsecond
    obtain ⟨_, -, rfl⟩ := List.mem_map.1 hfirst
    obtain ⟨_, -, rfl⟩ := List.mem_map.1 hsecond
    exact .inl hbefore

/-! ## What both requests see -/

/-- A file has the same text under its canonical path. -/
theorem FileTree.readText_canonical (tree : FileTree) (p : Path) :
    tree.readText (tree.canonical p) = tree.readText p := by
  cases hlocate : tree.locate p with
  | error e => rw [canonical, hlocate]
  | ok names =>
    have hagain := locate_ofNames (isSome_at?_of_locate hlocate)
    simp only [canonical, readText, hlocate, hagain]

/-- When no module is at fault, a search leaves none out. -/
theorem compiledModules_of_allModules {name : String} {results : List (Path × Except Fault Module)}
    {modules : List Module} (h : allModules name results = .ok modules) :
    compiledModules results = modules := by
  induction results generalizing modules with
  | nil => exact Except.ok.inj h
  | cons result results ih =>
    obtain ⟨p, outcome⟩ := result
    cases outcome with
    | error fault => cases h
    | ok m =>
      rw [allModules] at h
      cases hrest : allModules name results with
      | error e => simp [hrest] at h
      | ok others =>
        rw [hrest] at h
        have hothers : compiledModules results = others := ih hrest
        rw [← Except.ok.inj h, ← hothers]
        rfl

variable {config : Config} {tree : FileTree} {file root : Path} {line column : Nat}

/-- A plan with edits is the plan for the word under the caret. -/
theorem exists_word_of_planRename {plan : RenamePlan}
    (hplan : (planRename config.compiler config file line column root tree).1 =
      .ok (.completed plan))
    (hedits : plan.edits ≠ []) :
    ∃ text word, tree.readText file = .ok text ∧ wordAt text line column = .ok word ∧
      word.isEmpty = false ∧
      (planRenameSymbol config.compiler config file word.text root tree).1 =
        .ok (.completed plan) := by
  have htree : config.compiler.currentTree tree = (tree, tree) := rfl
  simp only [planRename, stateM_bind_apply, htree] at hplan
  cases hread : tree.readText file with
  | error cause =>
    rw [hread] at hplan
    cases hplan
  | ok text =>
    rw [hread] at hplan
    simp only at hplan
    cases hword : wordAt text line column with
    | error e =>
      rw [hword] at hplan
      cases hplan
      exact absurd rfl hedits
    | ok word =>
      rw [hword] at hplan
      simp only at hplan
      split at hplan
      · cases hplan
        exact absurd rfl hedits
      · next hempty => exact ⟨text, word, rfl, hword, by simpa using hempty, hplan⟩

/-- The text that is compiled is the one that the caret was put in. -/
theorem source_of_compileModule {start : Module} {text : String}
    (h : config.compileModule tree file none = .ok start) (hread : tree.readText file = .ok text) :
    start.source = text := by
  obtain ⟨hpath, -, -, hdisk⟩ := linked_of_compileModule h
  have htext := (hdisk rfl).text
  rw [hpath, FileTree.readText_canonical, hread] at htext
  exact (Except.ok.inj htext).symm

/-- Searching for references in a tree that does not change. -/
theorem findReferences_eq (config : Config) (tree : FileTree) (file : Path) (line column : Nat)
    (root : Path) :
    (findReferences config.compiler config file line column root tree).1 =
      match config.compileModule tree file none with
      | .error fault => .error (.fault fault)
      | .ok start =>
        match start.boundNameAt? line column with
        | none => .ok []
        | some name =>
          match Workspace.scan tree config.extension root with
          | .error e => .error (.root e)
          | .ok w =>
            .ok (referencesIn
              (compiledModules (compileEach config tree w.modulePaths) ++ [start])
              ⟨start.path, name⟩) := by
  have hcompile : config.compiler.compile file none tree =
      (config.compileModule tree file none, tree) := rfl
  have htree : config.compiler.currentTree tree = (tree, tree) := rfl
  simp only [findReferences, stateM_bind_apply, hcompile]
  cases config.compileModule tree file none with
  | error fault => rfl
  | ok start =>
    simp only
    cases start.boundNameAt? line column with
    | none => rfl
    | some name =>
      simp only [stateM_bind_apply, htree]
      cases Workspace.scan tree config.extension root with
      | error e => rfl
      | ok w => simp only [stateM_bind_apply, stateM_pure_apply, loadAll_compiler]

/-! ## The search finds the places of the plan -/

/-- When a rename has a plan with edits, the search for references at the same caret
finds the places of the plan, in order and without repetition. -/
theorem findReferences_of_planRename {plan : RenamePlan}
    (hplan : (planRename config.compiler config file line column root tree).1 =
      .ok (.completed plan))
    (hedits : plan.edits ≠ []) :
    (findReferences config.compiler config file line column root tree).1 = .ok plan.places ∧
      plan.places.Pairwise PlaceBefore ∧ plan.places.Nodup := by
  obtain ⟨text, word, hread, hword, -, hsymbol⟩ := exists_word_of_planRename hplan hedits
  obtain ⟨w, start, modules, owner, hscan, hmodules, hfrom⟩ :=
    exists_scan_plannedFrom hsymbol hedits
  have hname : start.boundNameAt? line column = some word.text := by
    rw [Module.boundNameAt?, source_of_compileModule hfrom.compiled hread, hword]
    exact if_pos (SymbolTable.contains_iff.2 hfrom.bound)
  have hplaces : plan.places =
      ((ImportIndex.ofModules (modules ++ [start])).spread owner).pairs := by
    rw [← places_editsAt _ owner.name, ← hfrom.edits]
  have hordered : plan.places.Pairwise PlaceBefore := by
    rw [hplaces]
    exact (ImportIndex.inOrder_spread owner).pairwise_pairs
  refine ⟨?_, hordered, hordered.imp PlaceBefore.ne⟩
  simp only [findReferences_eq, hfrom.compiled, hname, hscan,
    compiledModules_of_allModules hmodules, referencesIn, hfrom.climb, hplaces]

/-- At a caret outside of the root too, the search finds what the rename edits. -/
theorem findReferences_of_planRename_outside :
    (planRename Config.default.compiler .default ⟨"/w/out/main.ol"⟩ 0 21 ⟨"/w/ws"⟩
        outsideTree).1 = .ok (.completed outsidePlan) ∧
      (findReferences Config.default.compiler .default ⟨"/w/out/main.ol"⟩ 0 21 ⟨"/w/ws"⟩
        outsideTree).1 = .ok [(⟨"/w/out/main.ol"⟩, ⟨0, 19, 24⟩), (⟨"/w/ws/a.ol"⟩, ⟨0, 5, 10⟩)] := by
  have hplan : (planRename Config.default.compiler .default ⟨"/w/out/main.ol"⟩ 0 21 ⟨"/w/ws"⟩
      outsideTree).1 = .ok (.completed outsidePlan) := eq_ok_of_toOption (by decide +kernel)
  exact ⟨hplan, (findReferences_of_planRename hplan nofun).1⟩

end SymbolAtlas
