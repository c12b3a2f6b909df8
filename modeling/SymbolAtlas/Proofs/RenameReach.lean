import SymbolAtlas.Proofs.RenameVerdict

/-!
# How far a rename reaches

A plan edits the modules that are indexed for it: those of the workspace, which lie
beneath the root, and the module that the rename was asked for in, wherever it lies.
The climb from that module leads to the owner of the name, and the spread from the
owner leads back, so the module itself is always edited when anything is.  A plan
therefore stays beneath the root exactly when there is nothing to edit or the rename
was asked for in a file beneath the root.

## Main Definitions

* `PlannedFrom`: the index that a plan comes from.
* `PlanReach`: which modules a plan edits.

## Main Statements

* `planRenameSymbol_reach`: how far a completed plan reaches.
* `planRenameSymbol_leaves_root`: a plan that edits a module outside of the root.
-/

namespace SymbolAtlas

namespace ImportIndex

variable {index : ImportIndex}

theorem module?_ofModules_last (modules : List Module) (m : Module) :
    (ofModules (modules ++ [m])).module? m.path = some m := by
  simp [module?_ofModules]

/-! ## What a spread lists -/

/-- A spread lists indexed modules. -/
theorem Consistent.exists_module_of_mem_spread (h : index.Consistent) {owner : Binding}
    {entry : Path × List Span} (hentry : entry ∈ (index.spread owner).entries) :
    ∃ m ∈ index.modules, m.path.same entry.1 = true := by
  obtain ⟨b, -, ⟨hpath, hsome⟩ | ⟨i, hi, -, hpath⟩⟩ := fst_of_mem_spread hentry
  · obtain ⟨m, hm⟩ := Option.isSome_iff_exists.1 hsome
    rw [hpath]
    exact ⟨m, List.mem_of_find?_eq_some hm, by simpa using List.find?_some hm⟩
  · rw [h.importersOf_eq, mem_importsIn] at hi
    obtain ⟨m, hm, s, -, -, rfl⟩ := hi
    rw [hpath]
    exact ⟨m, hm, Path.same_refl _⟩

end ImportIndex

/-! ## What is indexed for a plan -/

variable {config : Config} {tree : FileTree} {file root : Path} {name : String}

theorem eq_editsAt_of_verifyLocations {w : Workspace} {index : ImportIndex} {owner : Binding}
    {plan : RenamePlan}
    (h : verifyLocations tree name w .empty (index.spread owner).entries = .ok plan) :
    plan.edits = (index.spread owner).entries.map (editsAt name) := by
  have hverified := verified_verifyLocations tree name w .empty (index.spread owner).entries
  rw [h] at hverified
  cases hverified
  rw [RenamePlan.insertAll_spread]

/-- A plan is the spread of the owner of a name, in an index of modules beneath the
root and the module that the rename was asked for in. -/
structure PlannedFrom (config : Config) (tree : FileTree) (file : Path) (name : String)
    (root : Path) (plan : RenamePlan) (start : Module) (modules : List Module) (owner : Binding) :
    Prop where
  compiled : config.compileModule tree file none = .ok start
  bound : name ∈ start.table.names
  beneath : ∀ m ∈ modules, m.path.isBeneath (tree.canonical root) = true
  climb : (ImportIndex.ofModules (modules ++ [start])).rootBinding ⟨start.path, name⟩ = .ok owner
  edits : plan.edits = ((ImportIndex.ofModules (modules ++ [start])).spread owner).entries.map
    (editsAt owner.name)

/-- A plan with edits comes from the compiled modules of a workspace. -/
theorem exists_scan_plannedFrom {plan : RenamePlan}
    (hplan : (planRenameSymbol config.compiler config file name root tree).1 =
      .ok (.completed plan))
    (hedits : plan.edits ≠ []) :
    ∃ w start modules owner, Workspace.scan tree config.extension root = .ok w ∧
      allModules name (compileEach config tree w.modulePaths) = .ok modules ∧
      PlannedFrom config tree file name root plan start modules owner := by
  cases hscan : Workspace.scan tree config.extension root with
  | error e =>
    rw [planRenameSymbol_eq, Workspace.scan_canonical, hscan] at hplan
    split at hplan
    · cases hplan
    · split at hplan
      · cases hplan
        exact absurd rfl hedits
      · split at hplan <;> cases hplan
  | ok w =>
    obtain ⟨hall, start, symbol, hbound⟩ := boundWithin_of_completed hscan hplan hedits
    obtain ⟨modules, hmodules, hmem⟩ := allModules_of_compile name hall
    rw [hbound.plan_eq hscan, concludeRename, hmodules] at hplan
    dsimp only at hplan
    cases hroot : (ImportIndex.ofModules (modules ++ [start])).rootBinding
        ⟨start.path, name⟩ with
    | error missing => simp [hroot] at hplan
    | ok owner =>
      rw [hroot] at hplan
      dsimp only at hplan
      split at hplan
      · split at hplan
        · cases hplan
        · next edits hverify =>
          cases hplan
          refine ⟨w, start, modules, owner, rfl, hmodules, hbound.compiled, ?_, fun m hm => ?_,
            hroot, eq_editsAt_of_verifyLocations hverify⟩
          · exact SymbolTable.isSome_lookup_iff.1 (Option.isSome_of_eq_some hbound.bound)
          · obtain ⟨p, hp, hcompile⟩ := (hmem m).1 hm
            obtain ⟨rfl, -⟩ := Workspace.compiled_of_mem_modulePaths hscan hp hcompile
            rw [← Workspace.root_of_scan hscan]
            exact Workspace.isBeneath_of_mem_modulePaths hscan hp
      · cases hplan

theorem exists_plannedFrom {plan : RenamePlan}
    (hplan : (planRenameSymbol config.compiler config file name root tree).1 =
      .ok (.completed plan))
    (hedits : plan.edits ≠ []) :
    ∃ start modules owner, PlannedFrom config tree file name root plan start modules owner := by
  obtain ⟨w, start, modules, owner, -, -, hfrom⟩ := exists_scan_plannedFrom hplan hedits
  exact ⟨start, modules, owner, hfrom⟩

/-! ## The reach of a plan -/

theorem isBeneath_congr {p q : Path} (h : p.same q = true) (root : Path) :
    p.isBeneath root = q.isBeneath root := by
  rw [Path.isBeneath, Path.isBeneath, Path.same_iff.1 h]

namespace PlannedFrom

variable {plan : RenamePlan} {start : Module} {modules : List Module} {owner : Binding}

/-- The name is bound in the module that the rename was asked for in. -/
theorem grounded_start (h : PlannedFrom config tree file name root plan start modules owner) :
    Grounded config tree ⟨start.path, name⟩ start := by
  obtain ⟨-, hlinked, -, hdisk⟩ := linked_of_compileModule h.compiled
  exact ⟨hlinked, hdisk rfl, rfl, h.bound⟩

/-- What is edited is indexed: a module beneath the root or the start. -/
theorem beneath_or_start (h : PlannedFrom config tree file name root plan start modules owner)
    {entry : Path × List RenameEdit} (hentry : entry ∈ plan.edits) :
    entry.1.isBeneath (tree.canonical root) = true ∨
      (tree.canonical file).same entry.1 = true := by
  rw [h.edits] at hentry
  obtain ⟨listed, hlisted, rfl⟩ := List.mem_map.1 hentry
  show listed.1.isBeneath (tree.canonical root) = true ∨
    (tree.canonical file).same listed.1 = true
  obtain ⟨m, hm, hsame⟩ :=
    (ImportIndex.consistent_ofModules (modules ++ [start])).exists_module_of_mem_spread hlisted
  rcases List.mem_append.1 (ImportIndex.mem_of_mem_ofModules hm) with hm | hm
  · rw [← isBeneath_congr hsame]
    exact .inl (h.beneath m hm)
  · obtain rfl := List.mem_singleton.1 hm
    obtain ⟨hpath, -⟩ := linked_of_compileModule h.compiled
    exact .inr (hpath ▸ hsame)

/-- The start is edited, since the spread leads back to it. -/
theorem start_edited (h : PlannedFrom config tree file name root plan start modules owner) :
    ∃ entry ∈ plan.edits, (tree.canonical file).same entry.1 = true ∧ entry.2 ≠ [] := by
  obtain ⟨hpath, -⟩ := linked_of_compileModule h.compiled
  obtain ⟨span, hspan⟩ := h.grounded_start.exists_use
  obtain ⟨listed, hlisted, hsame, hmem⟩ :=
    (ImportIndex.consistent_ofModules (modules ++ [start])).mentions_spread_of_rootBinding h.climb
      (ImportIndex.module?_ofModules_last modules start) hspan
  refine ⟨editsAt owner.name listed, h.edits ▸ List.mem_map_of_mem hlisted, ?_, ?_⟩
  · rw [← hpath]
    exact Path.same_symm hsame
  · simpa [editsAt] using List.ne_nil_of_mem hmem

end PlannedFrom

/-- Which modules a plan edits that was asked for in a file. -/
structure PlanReach (tree : FileTree) (file root : Path) (plan : RenamePlan) : Prop where
  /-- Beneath the root any module may be edited, elsewhere only the one that the rename
  was asked for in. -/
  beneath_or_start : ∀ entry ∈ plan.edits, entry.1.isBeneath (tree.canonical root) = true ∨
    (tree.canonical file).same entry.1 = true
  /-- When anything is edited, the module that the rename was asked for in is. -/
  start_edited : plan.edits ≠ [] → ∃ entry ∈ plan.edits,
    (tree.canonical file).same entry.1 = true ∧ entry.2 ≠ []
  /-- The plan stays beneath the root exactly when it edits nothing or was asked for
  beneath the root. -/
  inside_iff : (∀ entry ∈ plan.edits, entry.1.isBeneath (tree.canonical root) = true) ↔
    plan.edits = [] ∨ (tree.canonical file).isBeneath (tree.canonical root) = true

/-- A completed plan edits the module that it was asked for in, and all other modules
that it edits are beneath the root. -/
theorem planRenameSymbol_reach {plan : RenamePlan}
    (hplan : (planRenameSymbol config.compiler config file name root tree).1 =
      .ok (.completed plan)) : PlanReach tree file root plan := by
  by_cases hedits : plan.edits = []
  · exact ⟨by simp [hedits], fun hne => absurd hedits hne, by simp [hedits]⟩
  obtain ⟨start, modules, owner, hfrom⟩ := exists_plannedFrom hplan hedits
  refine ⟨fun _ => hfrom.beneath_or_start, fun _ => hfrom.start_edited, ?_, ?_⟩
  · intro hinside
    obtain ⟨entry, hentry, hsame, -⟩ := hfrom.start_edited
    rw [isBeneath_congr hsame]
    exact .inr (hinside entry hentry)
  · rintro (hnone | hfile) entry hentry
    · exact absurd hnone hedits
    · rcases hfrom.beneath_or_start hentry with hinside | hsame
      · exact hinside
      · rwa [← isBeneath_congr hsame]

/-- A module beneath `/w/ws`, and one outside that imports from it. -/
def outsideTree : FileTree :=
  ((FileTree.bare ⟨"/w"⟩).write ⟨"/w/ws/a.ol"⟩ (.text "type Shape")).write ⟨"/w/out/main.ol"⟩
    (.text "from ..ws.a import Shape")

/-- The plan that edits both. -/
def outsidePlan : RenamePlan :=
  ⟨[(⟨"/w/out/main.ol"⟩, [⟨⟨0, 19, 24⟩, "Shape"⟩]), (⟨"/w/ws/a.ol"⟩, [⟨⟨0, 5, 10⟩, "Shape"⟩])]⟩

theorem plan_outsideTree :
    (planRenameSymbol Config.default.compiler .default ⟨"/w/out/main.ol"⟩ "Shape" ⟨"/w/ws"⟩
      outsideTree).1 = .ok (.completed outsidePlan) :=
  eq_ok_of_toOption (by decide +kernel)

/-- Asked for outside of the root, the rename edits the module there. -/
theorem planRenameSymbol_reach_outside :
    (planRenameSymbol Config.default.compiler .default ⟨"/w/out/main.ol"⟩ "Shape" ⟨"/w/ws"⟩
        outsideTree).1 = .ok (.completed outsidePlan) ∧
      PlanReach outsideTree ⟨"/w/out/main.ol"⟩ ⟨"/w/ws"⟩ outsidePlan :=
  ⟨plan_outsideTree, planRenameSymbol_reach plan_outsideTree⟩

/-- A completed plan may edit a module that is not beneath the root. -/
theorem planRenameSymbol_leaves_root :
    ¬ ∀ (config : Config) (tree : FileTree) (file : Path) (name : String) (root : Path)
        (plan : RenamePlan),
      (planRenameSymbol config.compiler config file name root tree).1 = .ok (.completed plan) →
      ∀ entry ∈ plan.edits, entry.1.isBeneath (tree.canonical root) = true := by
  intro hinside
  have hbeneath := hinside .default outsideTree ⟨"/w/out/main.ol"⟩ "Shape" ⟨"/w/ws"⟩ outsidePlan
    plan_outsideTree (⟨"/w/out/main.ol"⟩, [⟨⟨0, 19, 24⟩, "Shape"⟩]) List.mem_cons_self
  have hout : (⟨"/w/out/main.ol"⟩ : Path).isBeneath (outsideTree.canonical ⟨"/w/ws"⟩) = false := by
    decide +kernel
  rw [hout] at hbeneath
  cases hbeneath

end SymbolAtlas
