import SymbolAtlas.Proofs.Sources
import SymbolAtlas.Proofs.WorkspaceIndex

/-!
# How planning a rename ends

In a tree that does not change, planning the rename of a name in a known file of
a workspace ends in one of six ways, and which one is decided by what compiling
the known files gives: the start file does not compile; it does not bind the
name; the name belongs to a module outside of the root; some known file does not
compile; climbing along unaliased imports leaves the known files; or there is a
plan with edits.  The check of locations against the texts never fails, since the
tables are exact indexes of texts that are still there.

## Main Definitions

* `Workspace.FirstFault`, `Workspace.AllCompile`: what compiling the known files
  gives.
* `RenameVerdict`: the six ways, with their conditions.

## Main Statements

* `planRenameSymbol_eq`: planning in a tree that does not change.
* `planRenameSymbol_verdict`: planning ends as the verdict says.
-/

namespace SymbolAtlas

/-- Why a rename is abandoned because of a fault. -/
def Fault.abandonReason : Fault → AbandonReason
  | .unreadable _ cause => .unreadable cause
  | fault => .fault fault

theorem Abandonment.ofFault_eq (name : String) (fault : Fault) :
    Abandonment.ofFault name fault = ⟨fault.path, name, fault.abandonReason⟩ := by
  cases fault <;> rfl

variable {config : Config} {tree : FileTree} {w : Workspace}

/-- All known files compile. -/
def Workspace.AllCompile (config : Config) (tree : FileTree) (w : Workspace) : Prop :=
  ∀ p ∈ w.modulePaths, ∃ m, config.compileModule tree p none = .ok m

/-- The fault of the first known file, in path order, that does not compile. -/
def Workspace.FirstFault (config : Config) (tree : FileTree) (w : Workspace) (fault : Fault) :
    Prop :=
  ∃ p ∈ w.modulePaths, config.compileModule tree p none = .error fault ∧
    ∀ q ∈ w.modulePaths, q.before p = true → ∃ m, config.compileModule tree q none = .ok m

/-! ## Compiling the known files -/

/-- What compiling some files gives. -/
def compileEach (config : Config) (tree : FileTree) (paths : List Path) :
    List (Path × Except Fault Module) :=
  paths.map fun p => (p, config.compileModule tree p none)

theorem loadAll_compiler (config : Config) (tree : FileTree) (w : Workspace) :
    w.loadAll config.compiler tree = (compileEach config tree w.modulePaths, tree) := by
  unfold Workspace.loadAll
  induction w.modulePaths with
  | nil => rfl
  | cons p paths ih =>
    have hcompile : config.compiler.compile p none tree =
        (config.compileModule tree p none, tree) := rfl
    rw [List.mapM_cons]
    simp only [stateM_bind_apply, stateM_pure_apply, hcompile, ih]
    rfl

/-- The first file that does not compile stands for all. -/
theorem allModules_of_fault {name : String} {fault : Fault} {front back : List Path} {p : Path}
    (hfront : ∀ q ∈ front, ∃ m, config.compileModule tree q none = .ok m)
    (hfault : config.compileModule tree p none = .error fault) :
    allModules name (compileEach config tree (front ++ p :: back)) =
      .error (.ofFault name fault) := by
  induction front with
  | nil => simp only [compileEach, List.nil_append, List.map_cons, hfault, allModules]
  | cons q front ih =>
    obtain ⟨⟨m, hm⟩, hrest⟩ := List.forall_mem_cons.1 hfront
    have hlater := ih hrest
    rw [compileEach] at hlater
    simp only [compileEach, List.cons_append, List.map_cons, hm, allModules, hlater]

/-- When all files compile, their modules are had. -/
theorem allModules_of_compile (name : String) {paths : List Path}
    (h : ∀ p ∈ paths, ∃ m, config.compileModule tree p none = .ok m) :
    ∃ modules, allModules name (compileEach config tree paths) = .ok modules ∧
      ∀ m, m ∈ modules ↔ ∃ p ∈ paths, config.compileModule tree p none = .ok m := by
  induction paths with
  | nil => exact ⟨[], rfl, by simp⟩
  | cons p paths ih =>
    obtain ⟨⟨m, hm⟩, hrest⟩ := List.forall_mem_cons.1 h
    obtain ⟨modules, hmodules, hmem⟩ := ih hrest
    rw [compileEach] at hmodules
    refine ⟨m :: modules, ?_, fun m' => ?_⟩
    · simp only [compileEach, List.map_cons, hm, allModules, hmodules]
    · rw [List.mem_cons, List.exists_mem_cons_iff, hm, Except.ok.injEq, hmem, eq_comm]

/-! ## Planning in a tree that does not change -/

theorem planRenameSymbol_eq (config : Config) (tree : FileTree) (file : Path) (name : String)
    (root : Path) :
    (planRenameSymbol config.compiler config file name root tree).1 =
      match config.compileModule tree file none with
      | .error fault => .error (.ofFault name fault)
      | .ok start =>
        match start.table.lookup name with
        | none => .ok (.completed .empty)
        | some symbol =>
          match symbol.foreignOrigin? (tree.canonical root) with
          | some origin => .ok (.skipped ⟨start.path, name, symbol.span, origin⟩)
          | none =>
            match Workspace.scan tree config.extension (tree.canonical root) with
            | .error e => .error ⟨tree.canonical root, name, .root e⟩
            | .ok w =>
              concludeRename tree w start name symbol (compileEach config tree w.modulePaths) := by
  have hcompile : config.compiler.compile file none tree =
      (config.compileModule tree file none, tree) := rfl
  have htree : config.compiler.currentTree tree = (tree, tree) := rfl
  simp only [planRenameSymbol, stateM_bind_apply, hcompile]
  cases config.compileModule tree file none with
  | error fault => rfl
  | ok start =>
    simp only [stateM_bind_apply, htree]
    cases start.table.lookup name with
    | none => rfl
    | some symbol =>
      simp only
      cases symbol.foreignOrigin? (tree.canonical root) with
      | some origin => rfl
      | none =>
        simp only
        cases Workspace.scan tree config.extension (tree.canonical root) with
        | error e => rfl
        | ok w =>
          simp only [stateM_bind_apply, stateM_pure_apply, loadAll_compiler, htree]

/-- The name is bound in the start file and does not belong outside of the root. -/
structure BoundWithin (config : Config) (tree : FileTree) (w : Workspace) (file : Path)
    (name : String) (start : Module) (symbol : Symbol) : Prop where
  compiled : config.compileModule tree file none = .ok start
  bound : start.table.lookup name = some symbol
  home : symbol.foreignOrigin? w.root = none

section Within

variable {root file : Path} {name : String} {start : Module} {symbol : Symbol}

/-- A name bound within the root is renamed once all known files are compiled. -/
theorem BoundWithin.plan_eq (h : BoundWithin config tree w file name start symbol)
    (hscan : Workspace.scan tree config.extension root = .ok w) :
    (planRenameSymbol config.compiler config file name root tree).1 =
      concludeRename tree w start name symbol (compileEach config tree w.modulePaths) := by
  have hhome := h.home
  rw [Workspace.root_of_scan hscan] at hhome
  rw [planRenameSymbol_eq]
  simp only [h.compiled, h.bound, hhome, Workspace.scan_canonical, hscan]

theorem BoundWithin.grounded (h : BoundWithin config tree w file name start symbol)
    (hscan : Workspace.scan tree config.extension root = .ok w) (hfile : file ∈ w.modulePaths) :
    Grounded config tree ⟨file, name⟩ start := by
  obtain ⟨hpath, hlinked, hdisk⟩ := Workspace.compiled_of_mem_modulePaths hscan hfile h.compiled
  refine ⟨hlinked, hdisk, hpath, SymbolTable.isSome_lookup_iff.1 ?_⟩
  rw [h.bound]
  rfl

/-- Locations that all pass become edits. -/
theorem verifyLocations_of_passes {entries : List (Path × List Span)}
    (h : ∀ i ∈ w.inspect tree entries, i.Passes name) :
    verifyLocations tree name w .empty entries = .ok (RenamePlan.empty.insertAll name entries) := by
  have hverified := verified_verifyLocations tree name w .empty entries
  generalize verifyLocations tree name w .empty entries = result at hverified
  cases hverified with
  | complete _ => rfl
  | @stopped earlier later i reason hsplit _ hfailed =>
    exact absurd (h i (by simp [hsplit])) hfailed.not_passes

/-- What a spread finds in a workspace that compiles passes the check. -/
theorem verifyLocations_spread (hscan : Workspace.scan tree config.extension root = .ok w)
    (hall : w.AllCompile config tree) {index : ImportIndex}
    (hindex : IndexesWorkspace config tree w index) {owner : Binding} {d : Module}
    (howner : Grounded config tree owner d) :
    verifyLocations tree owner.name w .empty (index.spread owner).entries =
      .ok ⟨(index.spread owner).entries.map (editsAt owner.name)⟩ := by
  rw [← RenamePlan.insertAll_spread]
  refine verifyLocations_of_passes ((Workspace.mirrors_of_scan hscan).passes fun entry hentry => ?_)
  have hknown := fst_mem_modulePaths_of_mem_spread hscan hindex howner hentry
  obtain ⟨m, hm⟩ := hall _ hknown
  obtain ⟨hpath, -, hdisk⟩ := Workspace.compiled_of_mem_modulePaths hscan hknown hm
  obtain ⟨names, hnames, hat⟩ := hdisk.exists_names
  refine ⟨names, m.source, hpath.symm.trans hnames, hat, fun span hspan => ?_⟩
  obtain ⟨b, hclass, hlocated⟩ := (mentions_spread_iff hscan hindex howner hknown).1
    ⟨entry, hentry, Path.same_refl _, hspan⟩
  obtain ⟨m', hm', hholds⟩ := hlocated.holds hscan howner hclass
  obtain rfl := Except.ok.inj (hm.symm.trans hm')
  exact hholds

/-- When all known files compile, planning ends where the climb does. -/
theorem BoundWithin.plan_ends (h : BoundWithin config tree w file name start symbol)
    (hscan : Workspace.scan tree config.extension root = .ok w) (hfile : file ∈ w.modulePaths)
    (hall : w.AllCompile config tree) :
    ∃ index last d, IndexesWorkspace config tree w index ∧
      Relation.ReflTransGen (ClimbsWithin config tree w) ⟨file, name⟩ last ∧
      Grounded config tree last d ∧
      (last.module ∈ w.modulePaths ∧ (∀ next, ¬ ClimbsWithin config tree w last next) ∧
          (planRenameSymbol config.compiler config file name root tree).1 =
            .ok (.completed ⟨(index.spread last).entries.map (editsAt last.name)⟩) ∨
        last.module ∉ w.modulePaths ∧
          (planRenameSymbol config.compiler config file name root tree).1 =
            .error ⟨last.module, name, .missingOrigin⟩) := by
  have hstart := h.grounded hscan hfile
  have hpath : start.path = file := hstart.path
  obtain ⟨modules, hmodules, hmem⟩ := allModules_of_compile name hall
  have hindex := indexesWorkspace_ofModules hscan hmem ((hmem start).2 ⟨file, hfile, h.compiled⟩)
  obtain ⟨last, d, hclimb, hlast, hend⟩ := hstart.rootBinding_ends hindex
  refine ⟨_, last, d, hindex, hclimb, hlast, ?_⟩
  rw [h.plan_eq hscan]
  simp only [concludeRename, hmodules, hpath]
  rcases hend with ⟨hknown, hstop, hroot⟩ | ⟨hunknown, hroot⟩
  · have hcontains : w.contains tree last.module = true := by
      rw [Workspace.contains, Workspace.canonical_of_mem_modulePaths hscan hknown]
      exact Workspace.isBeneath_of_mem_modulePaths hscan hknown
    have hverify := verifyLocations_spread hscan hall hindex hlast
    refine .inl ⟨hknown, hstop, ?_⟩
    simp only [hroot, hcontains, if_true, hverify]
  · refine .inr ⟨hunknown, ?_⟩
    simp only [hroot]

theorem climbsWithin_rightUnique : Relator.RightUnique (ClimbsWithin config tree w) := by
  rintro b next next' ⟨-, m, s, hm, hlookup, -, rfl⟩ ⟨-, m', s', hm', hlookup', -, rfl⟩
  obtain rfl := Except.ok.inj (hm.symm.trans hm')
  obtain rfl := Symbol.imported.inj (Option.some.inj (hlookup.symm.trans hlookup'))
  rfl

/-- A climb has one end. -/
theorem climb_end_unique {b last last' : Binding}
    (h : Relation.ReflTransGen (ClimbsWithin config tree w) b last)
    (hend : ∀ next, ¬ ClimbsWithin config tree w last next)
    (h' : Relation.ReflTransGen (ClimbsWithin config tree w) b last')
    (hend' : ∀ next, ¬ ClimbsWithin config tree w last' next) : last = last' :=
  walk_end_unique climbsWithin_rightUnique h hend h' hend'

end Within

/-! ## The verdict -/

/-- How planning the rename of a name in a known file ends.  The conditions are
decided one after the other, and one of them holds. -/
structure RenameVerdict (config : Config) (tree : FileTree) (w : Workspace) (file : Path)
    (name : String) (outcome : Except Abandonment RenameOutcome) : Prop where
  /-- The start file does not compile. -/
  faulty : ∀ fault, config.compileModule tree file none = .error fault →
    outcome = .error ⟨fault.path, name, fault.abandonReason⟩
  /-- The start file does not bind the name. -/
  unbound : ∀ start, config.compileModule tree file none = .ok start →
    start.table.lookup name = none → outcome = .ok (.completed .empty)
  /-- The name is imported, and belongs to a module outside of the root. -/
  foreign : ∀ start s, config.compileModule tree file none = .ok start →
    start.table.lookup name = some (.imported s) → s.origin.module.isBeneath w.root = false →
    outcome = .ok (.skipped ⟨start.path, name, s.span, s.origin.module⟩)
  /-- Some known file does not compile. -/
  uncompiled : ∀ start symbol fault, BoundWithin config tree w file name start symbol →
    w.FirstFault config tree fault → outcome = .error ⟨fault.path, name, fault.abandonReason⟩
  /-- The climb leaves the known files. -/
  missing : ∀ start symbol last, BoundWithin config tree w file name start symbol →
    w.AllCompile config tree →
    Relation.ReflTransGen (ClimbsWithin config tree w) ⟨file, name⟩ last →
    last.module ∉ w.modulePaths → outcome = .error ⟨last.module, name, .missingOrigin⟩
  /-- The climb stays in the known files. -/
  completed : ∀ start symbol, BoundWithin config tree w file name start symbol →
    w.AllCompile config tree →
    (∀ b, Relation.ReflTransGen (ClimbsWithin config tree w) ⟨file, name⟩ b →
      b.module ∈ w.modulePaths) →
    ∃ plan, outcome = .ok (.completed plan) ∧ plan.edits ≠ []
  /-- No location is found that does not hold the name. -/
  no_mismatch : ∀ module symbol span, outcome ≠ .error ⟨module, symbol, .locationMismatch span⟩
  /-- Where a module cannot be read, a compilation has failed for that. -/
  unreadable : ∀ module symbol cause, outcome = .error ⟨module, symbol, .unreadable cause⟩ →
    ∃ p ∈ w.modulePaths, config.compileModule tree p none = .error (.unreadable module cause)

/-- All known files compile, or one of them is the first that does not. -/
theorem Workspace.allCompile_or_firstFault (config : Config) (tree : FileTree) (w : Workspace) :
    w.AllCompile config tree ∨ ∃ fault, w.FirstFault config tree fault := by
  have hordered := w.pairwise_modulePaths
  unfold Workspace.AllCompile Workspace.FirstFault
  generalize w.modulePaths = paths at hordered
  induction paths with
  | nil => exact .inl (List.forall_mem_nil _)
  | cons p paths ih =>
    obtain ⟨hfirst, hothers⟩ := List.pairwise_cons.1 hordered
    cases hp : config.compileModule tree p none with
    | error fault =>
      -- nothing comes before the first file
      refine .inr ⟨fault, p, List.mem_cons_self, hp, fun q hq hbefore => ?_⟩
      have hnot : q.before p = false := by
        rcases List.mem_cons.1 hq with rfl | hq
        · exact Path.before_irrefl q
        · exact Path.before_asymm (hfirst q hq)
      rw [hnot] at hbefore
      cases hbefore
    | ok m =>
      rcases ih hothers with hall | ⟨fault, q, hq, hfault, hearlier⟩
      · exact .inl (List.forall_mem_cons.2 ⟨⟨m, hp⟩, hall⟩)
      · exact .inr ⟨fault, q, List.mem_cons_of_mem p hq, hfault,
          List.forall_mem_cons.2 ⟨fun _ => ⟨m, hp⟩, hearlier⟩⟩

section Verdicts

variable {root file : Path} {name : String} {start : Module} {symbol : Symbol} {fault : Fault}

theorem plan_of_fault (h : config.compileModule tree file none = .error fault) :
    (planRenameSymbol config.compiler config file name root tree).1 =
      .error ⟨fault.path, name, fault.abandonReason⟩ := by
  rw [planRenameSymbol_eq]
  simp only [h, Abandonment.ofFault_eq]

theorem plan_of_unbound (h : config.compileModule tree file none = .ok start)
    (hlookup : start.table.lookup name = none) :
    (planRenameSymbol config.compiler config file name root tree).1 =
      .ok (.completed .empty) := by
  rw [planRenameSymbol_eq]
  simp only [h, hlookup]

/-- A name that belongs outside of the root is skipped before any other file is
looked at. -/
theorem plan_of_foreign (hscan : Workspace.scan tree config.extension root = .ok w)
    (h : config.compileModule tree file none = .ok start)
    (hlookup : start.table.lookup name = some symbol) {origin : Path}
    (hforeign : symbol.foreignOrigin? w.root = some origin) :
    (planRenameSymbol config.compiler config file name root tree).1 =
      .ok (.skipped ⟨start.path, name, symbol.span, origin⟩) := by
  rw [Workspace.root_of_scan hscan] at hforeign
  rw [planRenameSymbol_eq]
  simp only [h, hlookup, hforeign]

theorem BoundWithin.plan_of_firstFault (h : BoundWithin config tree w file name start symbol)
    (hscan : Workspace.scan tree config.extension root = .ok w)
    (hfault : w.FirstFault config tree fault) :
    (planRenameSymbol config.compiler config file name root tree).1 =
      .error ⟨fault.path, name, fault.abandonReason⟩ := by
  obtain ⟨p, hp, hfailed, hearlier⟩ := hfault
  obtain ⟨front, back, hpaths⟩ := List.append_of_mem hp
  have hordered := w.pairwise_modulePaths
  rw [hpaths] at hordered
  have hfront : ∀ q ∈ front, ∃ m, config.compileModule tree q none = .ok m := by
    intro q hq
    have hbefore := (List.pairwise_append.1 hordered).2.2 q hq p List.mem_cons_self
    exact hearlier q (by simp [hpaths, hq]) hbefore
  rw [h.plan_eq hscan, concludeRename, hpaths, allModules_of_fault hfront hfailed,
    Abandonment.ofFault_eq]

/-- What can come of planning: the fault of a known file, an outcome, or an origin
that is missing. -/
theorem plan_cases (hscan : Workspace.scan tree config.extension root = .ok w)
    (hfile : file ∈ w.modulePaths) (name : String) :
    (∃ p ∈ w.modulePaths, ∃ fault, config.compileModule tree p none = .error fault ∧
        (planRenameSymbol config.compiler config file name root tree).1 =
          .error ⟨fault.path, name, fault.abandonReason⟩) ∨
      (∃ outcome, (planRenameSymbol config.compiler config file name root tree).1 = .ok outcome) ∨
      ∃ module, (planRenameSymbol config.compiler config file name root tree).1 =
        .error ⟨module, name, .missingOrigin⟩ := by
  cases hstart : config.compileModule tree file none with
  | error fault => exact .inl ⟨file, hfile, fault, hstart, plan_of_fault hstart⟩
  | ok start =>
    cases hlookup : start.table.lookup name with
    | none => exact .inr (.inl ⟨_, plan_of_unbound hstart hlookup⟩)
    | some symbol =>
      cases hforeign : symbol.foreignOrigin? w.root with
      | some origin => exact .inr (.inl ⟨_, plan_of_foreign hscan hstart hlookup hforeign⟩)
      | none =>
        have hbound : BoundWithin config tree w file name start symbol :=
          ⟨hstart, hlookup, hforeign⟩
        rcases w.allCompile_or_firstFault config tree with hall | ⟨fault, hfault⟩
        · obtain ⟨index, last, d, -, -, -, ⟨-, -, hplan⟩ | ⟨-, hplan⟩⟩ :=
            hbound.plan_ends hscan hfile hall
          · exact .inr (.inl ⟨_, hplan⟩)
          · exact .inr (.inr ⟨_, hplan⟩)
        · have hplan := hbound.plan_of_firstFault hscan hfault
          obtain ⟨p, hp, hfailed, -⟩ := hfault
          exact .inl ⟨p, hp, fault, hfailed, hplan⟩

/-- A plan with edits is made for a name that is bound within the root, and only when
all known files compile. -/
theorem boundWithin_of_completed (hscan : Workspace.scan tree config.extension root = .ok w)
    {plan : RenamePlan}
    (hplan : (planRenameSymbol config.compiler config file name root tree).1 =
      .ok (.completed plan))
    (hedits : plan.edits ≠ []) :
    w.AllCompile config tree ∧ ∃ start symbol,
      BoundWithin config tree w file name start symbol := by
  cases hstart : config.compileModule tree file none with
  | error fault =>
    rw [plan_of_fault hstart] at hplan
    cases hplan
  | ok start =>
    cases hlookup : start.table.lookup name with
    | none =>
      rw [plan_of_unbound hstart hlookup] at hplan
      cases hplan
      exact absurd rfl hedits
    | some symbol =>
      cases hforeign : symbol.foreignOrigin? w.root with
      | some origin =>
        rw [plan_of_foreign hscan hstart hlookup hforeign] at hplan
        cases hplan
      | none =>
        have hbound : BoundWithin config tree w file name start symbol :=
          ⟨hstart, hlookup, hforeign⟩
        rcases w.allCompile_or_firstFault config tree with hall | ⟨fault, hfault⟩
        · exact ⟨hall, start, symbol, hbound⟩
        · rw [hbound.plan_of_firstFault hscan hfault] at hplan
          cases hplan

/-- A plan with edits is the plan for the rename class of the end of the climb. -/
theorem exists_owner_of_completed (hscan : Workspace.scan tree config.extension root = .ok w)
    (hfile : file ∈ w.modulePaths) {plan : RenamePlan}
    (hplan : (planRenameSymbol config.compiler config file name root tree).1 =
      .ok (.completed plan))
    (hedits : plan.edits ≠ []) :
    w.AllCompile config tree ∧ ∃ index owner d, IndexesWorkspace config tree w index ∧
      Relation.ReflTransGen (ClimbsWithin config tree w) ⟨file, name⟩ owner ∧
      Grounded config tree owner d ∧ owner.name = name ∧ owner.module ∈ w.modulePaths ∧
      (∀ next, ¬ ClimbsWithin config tree w owner next) ∧
      plan.edits = (index.spread owner).entries.map (editsAt owner.name) := by
  obtain ⟨hall, start, symbol, hbound⟩ := boundWithin_of_completed hscan hplan hedits
  obtain ⟨index, owner, d, hindex, hclimb, howner, ⟨hknown, hstop, heq⟩ | ⟨-, heq⟩⟩ :=
    hbound.plan_ends hscan hfile hall
  · obtain ⟨hname, -⟩ := (hbound.grounded hscan hfile).climb_all hclimb
    rw [heq] at hplan
    cases hplan
    exact ⟨hall, index, owner, d, hindex, hclimb, howner, hname, hknown, hstop, rfl⟩
  · rw [heq] at hplan
    cases hplan

end Verdicts

/-- In a tree that does not change, planning the rename of a name in a known file
ends as the verdict says. -/
theorem planRenameSymbol_verdict {root : Path}
    (hscan : Workspace.scan tree config.extension root = .ok w) {file : Path}
    (hfile : file ∈ w.modulePaths) (name : String) :
    RenameVerdict config tree w file name
      (planRenameSymbol config.compiler config file name root tree).1 where
  faulty fault hfault := plan_of_fault hfault
  unbound start hstart hlookup := plan_of_unbound hstart hlookup
  foreign start s hstart hlookup hbeneath :=
    plan_of_foreign hscan hstart hlookup (by simp [Symbol.foreignOrigin?, hbeneath])
  uncompiled start symbol fault hbound hfault := hbound.plan_of_firstFault hscan hfault
  missing start symbol last hbound hall hclimb hunknown := by
    obtain ⟨index, last', d, -, hclimb', -, ⟨hknown, hstop, -⟩ | ⟨hunknown', hplan⟩⟩ :=
      hbound.plan_ends hscan hfile hall
    · have heq := climb_end_unique hclimb (fun _ hnext => hunknown hnext.1) hclimb' hstop
      exact absurd (heq ▸ hknown) hunknown
    · rw [climb_end_unique hclimb (fun _ hnext => hunknown hnext.1) hclimb'
        fun _ hnext => hunknown' hnext.1]
      exact hplan
  completed start symbol hbound hall hinside := by
    obtain ⟨index, last, d, hindex, hclimb, hlast, ⟨hknown, -, hplan⟩ | ⟨hunknown, -⟩⟩ :=
      hbound.plan_ends hscan hfile hall
    · refine ⟨_, hplan, ?_⟩
      simpa using spread_ne_nil hscan hindex hlast hknown
    · exact absurd (hinside last hclimb) hunknown
  no_mismatch module symbol span houtcome := by
    rcases plan_cases hscan hfile name with
      ⟨p, -, fault, -, hplan⟩ | ⟨outcome, hplan⟩ | ⟨m, hplan⟩
    · rw [hplan] at houtcome
      cases fault <;> cases houtcome
    · rw [hplan] at houtcome
      cases houtcome
    · rw [hplan] at houtcome
      cases houtcome
  unreadable module symbol cause houtcome := by
    rcases plan_cases hscan hfile name with
      ⟨p, hp, fault, hfault, hplan⟩ | ⟨outcome, hplan⟩ | ⟨m, hplan⟩
    · rw [hplan] at houtcome
      cases fault with
      | unreadable path cause' =>
        cases houtcome
        exact ⟨p, hp, hfault⟩
      | _ => cases houtcome
    · rw [hplan] at houtcome
      cases houtcome
    · rw [hplan] at houtcome
      cases houtcome

/-- A module outside of `/w` that passes on a name from within. -/
def detourTree : FileTree :=
  (((FileTree.bare ⟨"/w"⟩).write ⟨"/w/a.ol"⟩ (.text "type Shape")).write ⟨"/i/s.ol"⟩
    (.text "from ..w.a import Shape")).write ⟨"/w/b.ol"⟩ (.text "from s import Shape")

/-- The configuration that searches the folder of that module. -/
def detourConfig : Config := Config.default.addIncludePaths [⟨"/i"⟩]

/-- The workspace within. -/
def detourWorkspace : Workspace := ⟨⟨"/w"⟩, .insertAll .empty [⟨"/w/a.ol"⟩, ⟨"/w/b.ol"⟩]⟩

/-- The declaring module, compiled. -/
def detourOrigin : Module :=
  { path := ⟨"/w/a.ol"⟩
    source := "type Shape"
    table :=
      { owner := ⟨"/w/a.ol"⟩
        declared := [⟨"Shape", .type, ⟨0, 5, 10⟩⟩]
        imported := []
        uses := [("Shape", [⟨0, 5, 10⟩])] } }

/-- The importing module, compiled. -/
def detourStart : Module :=
  { path := ⟨"/w/b.ol"⟩
    source := "from s import Shape"
    table :=
      { owner := ⟨"/w/b.ol"⟩
        declared := []
        imported := [⟨"Shape", ⟨0, 14, 19⟩, ⟨⟨"/i/s.ol"⟩, "Shape", ⟨0, 14, 19⟩⟩,
          ⟨⟨"/w/a.ol"⟩, "Shape", .type, ⟨0, 5, 10⟩⟩, false⟩]
        uses := [("Shape", [⟨0, 14, 19⟩])] } }

/-- The climb leaves the workspace although the name belongs within. -/
theorem planRenameSymbol_verdict_detour :
    (planRenameSymbol detourConfig.compiler detourConfig ⟨"/w/b.ol"⟩ "Shape" ⟨"/w"⟩ detourTree).1 =
      .error ⟨⟨"/i/s.ol"⟩, "Shape", .missingOrigin⟩ := by
  have hscan : Workspace.scan detourTree detourConfig.extension ⟨"/w"⟩ = .ok detourWorkspace :=
    eq_ok_of_toOption (by decide +kernel)
  have hpaths : detourWorkspace.modulePaths = [⟨"/w/a.ol"⟩, ⟨"/w/b.ol"⟩] := by decide +kernel
  have hfile : ⟨"/w/b.ol"⟩ ∈ detourWorkspace.modulePaths := by simp [hpaths]
  have horigin : detourConfig.compileModule detourTree ⟨"/w/a.ol"⟩ none = .ok detourOrigin :=
    eq_ok_of_toOption (by decide +kernel)
  have hstart : detourConfig.compileModule detourTree ⟨"/w/b.ol"⟩ none = .ok detourStart :=
    eq_ok_of_toOption (by decide +kernel)
  have hall : detourWorkspace.AllCompile detourConfig detourTree := by
    simp only [Workspace.AllCompile, hpaths, List.forall_mem_cons]
    exact ⟨⟨_, horigin⟩, ⟨_, hstart⟩, List.forall_mem_nil _⟩
  refine (planRenameSymbol_verdict hscan hfile "Shape").missing detourStart _ ⟨⟨"/i/s.ol"⟩, "Shape"⟩
    ⟨hstart, rfl, by decide +kernel⟩ hall ?_ (by simp [hpaths])
  exact .single ⟨hfile, detourStart, _, hstart, rfl, rfl, rfl⟩

end SymbolAtlas
