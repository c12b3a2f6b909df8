import SymbolAtlas.FileTree.Update
import SymbolAtlas.Proofs.EditOrder
import SymbolAtlas.Proofs.Results

/-!
# A rename is planned as a whole or not at all

Before a rename is planned, every location that was found is checked against the
text of its module as it is now.  Nothing is known about these locations: the
compiler may have reported any spans, and files may have changed since.  The
check reads the modules one after the other through the workspace, which keeps
what it has read, so an `Inspection` records what reading a module gave when its
turn came.

## Main Definitions

* `Workspace.inspect`: the inspections of some located modules, in their order.
* `Inspection.Passes` and `Inspection.FailsWith`: all spans hold the name, or the
  first obstacle.
* `ReachesVerification`: planning has come to the check of its locations.

## Main Statements

* `rename_all_or_nothing`: either every location passes and the plan has exactly
  the locations found, or the first failure is reported and there is no plan.
-/

namespace SymbolAtlas

/-! ## Inspecting modules in turn -/

/-- A module with the spans to be checked in it, and what reading it gave. -/
structure Inspection where
  module : Path
  spans : List Span
  reading : Except ReadError String

namespace Inspection

/-- The module can be read, and each span holds the name. -/
def Passes (name : String) (i : Inspection) : Prop :=
  ∃ text, i.reading = .ok text ∧ ∀ span ∈ i.spans, holds text span name = true

/-- Why an inspection fails: the module cannot be read, or a span does not hold
the name although all spans before it do. -/
inductive FailsWith (name : String) (i : Inspection) : AbandonReason → Prop where
  | unreadable {cause : ReadError} (reading : i.reading = .error cause) :
      i.FailsWith name (.unreadable cause)
  | mismatch {text : String} {earlier later : List Span} {span : Span}
      (reading : i.reading = .ok text) (split : i.spans = earlier ++ span :: later)
      (passed : ∀ s ∈ earlier, holds text s name = true)
      (failed : holds text span name = false) :
      i.FailsWith name (.locationMismatch span)

theorem FailsWith.not_passes {name : String} {i : Inspection} {reason : AbandonReason}
    (h : i.FailsWith name reason) : ¬ i.Passes name := by
  rintro ⟨text, hreading, hall⟩
  cases h with
  | unreadable hfail => simp [hfail] at hreading
  | mismatch hread hsplit _ hfailed =>
    obtain rfl : _ = text := by simpa [hread] using hreading
    rw [hall _ (by simp [hsplit])] at hfailed
    cases hfailed

end Inspection

/-- The inspections of some located modules, read one after the other. -/
def Workspace.inspect (tree : FileTree) :
    Workspace → List (Path × List Span) → List Inspection
  | _, [] => []
  | workspace, (module, spans) :: rest =>
    let (reading, workspace) := workspace.source tree module
    ⟨module, spans, reading⟩ :: inspect tree workspace rest

/-- The inspections follow the modules as they are located. -/
theorem Workspace.map_inspect (tree : FileTree) (workspace : Workspace)
    (entries : List (Path × List Span)) :
    (workspace.inspect tree entries).map (fun i => (i.module, i.spans)) = entries := by
  induction entries generalizing workspace with
  | nil => rfl
  | cons entry rest ih => exact congrArg (entry :: ·) (ih _)

/-- Checking locations either adds an edit for each of them to a plan, when all
inspections pass, or stops at the first inspection that fails. -/
inductive Verified (name : String) (plan : RenamePlan) (entries : List (Path × List Span))
    (inspections : List Inspection) : Except Abandonment RenamePlan → Prop where
  | complete (passed : ∀ i ∈ inspections, i.Passes name) :
      Verified name plan entries inspections (.ok (plan.insertAll name entries))
  | stopped {earlier later : List Inspection} {i : Inspection} {reason : AbandonReason}
      (split : inspections = earlier ++ i :: later) (passed : ∀ j ∈ earlier, j.Passes name)
      (failed : i.FailsWith name reason) :
      Verified name plan entries inspections (.error ⟨i.module, name, reason⟩)

/-- One more module that passes in front does not change where a check stops. -/
theorem Verified.cons {name : String} {plan : RenamePlan} {entries : List (Path × List Span)}
    {i : Inspection} {inspections : List Inspection} {result : Except Abandonment RenamePlan}
    {entry : Path × List Span} (hi : i.Passes name)
    (h : Verified name (plan.insert entry.1 name entry.2) entries inspections result) :
    Verified name plan (entry :: entries) (i :: inspections) result := by
  cases h with
  | complete hpassed =>
    exact .complete (List.forall_mem_cons.2 ⟨hi, hpassed⟩)
  | @stopped earlier later j _ hsplit hpassed hfailed =>
    have hcons : i :: inspections = (i :: earlier) ++ j :: later := by
      rw [hsplit, List.cons_append]
    exact .stopped hcons (List.forall_mem_cons.2 ⟨hi, hpassed⟩) hfailed

theorem verified_verifyLocations (tree : FileTree) (name : String) (workspace : Workspace)
    (plan : RenamePlan) (entries : List (Path × List Span)) :
    Verified name plan entries (workspace.inspect tree entries)
      (verifyLocations tree name workspace plan entries) := by
  induction entries generalizing workspace plan with
  | nil => exact .complete (by simp [Workspace.inspect])
  | cons entry rest ih =>
    obtain ⟨module, spans⟩ := entry
    obtain ⟨reading, next, hsource⟩ :
        ∃ reading next, workspace.source tree module = (reading, next) := ⟨_, _, rfl⟩
    simp only [Workspace.inspect, verifyLocations, hsource]
    cases reading with
    | error cause =>
      exact .stopped (List.nil_append _).symm (by simp) (.unreadable rfl)
    | ok text =>
      simp only
      cases hfind : spans.find? (!holds text · name) with
      | some span =>
        obtain ⟨hspan, earlier, later, hsplit, hearlier⟩ := List.find?_eq_some_iff_append.1 hfind
        refine .stopped (List.nil_append _).symm (by simp) (.mismatch rfl hsplit ?_ ?_)
        · intro s hs
          simpa using hearlier s hs
        · simpa using hspan
      | none =>
        have hpasses : Inspection.Passes name ⟨module, spans, .ok text⟩ := by
          refine ⟨text, rfl, fun span hspan => ?_⟩
          simpa using List.find?_eq_none.1 hfind span hspan
        exact .cons hpasses (ih next _)

/-! ## The check within a rename -/

/-- What the check of a rename works on: the tree and the workspace as they are
when it begins, the binding that owns the name, and the locations found. -/
structure Verification where
  tree : FileTree
  workspace : Workspace
  owner : Binding
  found : Locations

namespace Verification

/-- The inspections that the check makes. -/
def inspections (v : Verification) : List Inspection :=
  v.workspace.inspect v.tree v.found.entries

/-- The outcome of the check. -/
def outcome (v : Verification) : Except Abandonment RenameOutcome :=
  (verifyLocations v.tree v.owner.name v.workspace .empty v.found.entries).map .completed

end Verification

/-- Planning a rename reaches the check of its locations: the start module and
all modules of the workspace compile, the name is bound and belongs beneath the
root, and its owner is found there.  The compiler is arbitrary and may change the
world between any two compilations. -/
inductive ReachesVerification {σ : Type} (c : Compiler σ) (config : Config) (file : Path)
    (name : String) (root : Path) (world : σ) : Verification → Prop where
  | intro {start : Module} {symbol : Symbol} {compiled loaded : σ} {workspace : Workspace}
      {results : List (Path × Except Fault Module)} {modules : List Module} {owner : Binding}
      (compile : c.compile file none world = (.ok start, compiled))
      (bound : start.table.lookup name = some symbol)
      (home : symbol.foreignOrigin? ((c.tree compiled).canonical root) = none)
      (scan : Workspace.scan (c.tree compiled) config.extension
        ((c.tree compiled).canonical root) = .ok workspace)
      (load : workspace.loadAll c compiled = (results, loaded))
      (all : allModules name results = .ok modules)
      (climb : (ImportIndex.ofModules (modules ++ [start])).rootBinding ⟨start.path, name⟩ =
        .ok owner)
      (inside : workspace.contains (c.tree loaded) owner.module = true) :
      ReachesVerification c config file name root world
        ⟨c.tree loaded, workspace, owner, (ImportIndex.ofModules (modules ++ [start])).spread owner⟩

section Reached

variable {σ : Type} {c : Compiler σ} {config : Config} {file root : Path} {name : String}
  {world : σ} {v : Verification}

/-- Once the check is reached, its outcome is that of the rename. -/
theorem planRenameSymbol_eq_outcome (h : ReachesVerification c config file name root world v) :
    (planRenameSymbol c config file name root world).1 = v.outcome := by
  obtain ⟨hcompile, hbound, hhome, hscan, hload, hall, hclimb, hinside⟩ := h
  have htree : ∀ world, c.currentTree world = (c.tree world, world) := fun _ => rfl
  simp only [planRenameSymbol, stateM_bind_apply, stateM_pure_apply, htree, hcompile, hbound, hhome,
    hscan, hload, concludeRename, hall, hclimb, hinside, if_true]
  unfold Verification.outcome
  split <;> simp_all [Except.map]

theorem found_eq_spread (h : ReachesVerification c config file name root world v) :
    ∃ index : ImportIndex, v.found = index.spread v.owner := by
  cases h
  exact ⟨_, rfl⟩

end Reached

/-- What it means that a rename is planned as a whole or not at all. -/
structure AllOrNothing (v : Verification) (outcome : Except Abandonment RenameOutcome) : Prop where
  /-- Modules are inspected in path order, each with the spans found in it by place, whether
  there is a plan in the end or not. -/
  inspected : v.inspections.map (fun i => (i.module, i.spans)) = v.found.entries ∧ v.found.InOrder
  /-- There is a plan exactly when every module can be read and every span in it
  holds the name. -/
  completed_iff : (∃ plan, outcome = .ok (.completed plan)) ↔
    ∀ i ∈ v.inspections, i.Passes v.owner.name
  /-- A plan has exactly the locations found, all with the name, and in order. -/
  plan_eq : ∀ plan, outcome = .ok (.completed plan) →
    plan.edits = v.found.entries.map (editsAt v.owner.name) ∧ plan.InOrder
  /-- Without a plan, the first module in path order that fails is named, with its reason. -/
  stopped : (¬ ∃ plan, outcome = .ok (.completed plan)) →
    ∃ earlier i later reason, v.inspections = earlier ++ i :: later ∧
      (∀ j ∈ earlier, j.module.before i.module = true) ∧
      (∀ j ∈ later, i.module.before j.module = true) ∧
      (∀ j ∈ earlier, j.Passes v.owner.name) ∧ i.FailsWith v.owner.name reason ∧
      outcome = .error ⟨i.module, v.owner.name, reason⟩

/-- Whatever the compiler reports and however the files change in between, a
rename that comes to the check of its locations has a complete plan or none. -/
theorem rename_all_or_nothing {σ : Type} {c : Compiler σ} {config : Config} {file root : Path}
    {name : String} {world : σ} {v : Verification}
    (h : ReachesVerification c config file name root world v) :
    AllOrNothing v (planRenameSymbol c config file name root world).1 := by
  rw [planRenameSymbol_eq_outcome h]
  obtain ⟨index, hfound⟩ := found_eq_spread h
  have hinspected : v.inspections.map (fun i => (i.module, i.spans)) = v.found.entries :=
    v.workspace.map_inspect v.tree v.found.entries
  have hfoundOrder : v.found.InOrder := hfound ▸ index.inOrder_spread v.owner
  have hverified : Verified v.owner.name .empty v.found.entries v.inspections
      (verifyLocations v.tree v.owner.name v.workspace .empty v.found.entries) :=
    verified_verifyLocations _ _ _ _ _
  unfold Verification.outcome
  generalize verifyLocations v.tree v.owner.name v.workspace .empty v.found.entries = result
    at hverified
  cases hverified with
  | complete hpassed =>
    refine ⟨⟨hinspected, hfoundOrder⟩, ⟨fun _ => hpassed, fun _ => ⟨_, rfl⟩⟩, ?_,
      fun hnone => absurd ⟨_, rfl⟩ hnone⟩
    intro plan hplan
    obtain rfl : _ = plan := by simpa [Except.map] using hplan
    rw [hfound, RenamePlan.insertAll_spread]
    exact ⟨rfl, inOrder_editsAt_spread index v.owner v.owner.name⟩
  | @stopped earlier later i reason hsplit hpassed hfailed =>
    have hmodules : (earlier ++ i :: later).Pairwise
        fun a b => a.module.before b.module = true := by
      have hentries := hfoundOrder.1
      rw [← hinspected, hsplit, List.pairwise_map] at hentries
      exact hentries
    obtain ⟨-, hlater, hearlier⟩ := List.pairwise_append.1 hmodules
    refine ⟨⟨hinspected, hfoundOrder⟩, ⟨?_, ?_⟩, ?_, fun _ => ?_⟩
    · rintro ⟨plan, hplan⟩
      cases hplan
    · intro hall
      exact absurd (hall i (by simp [hsplit])) hfailed.not_passes
    · intro plan hplan
      cases hplan
    · exact ⟨earlier, i, later, reason, hsplit, fun j hj => hearlier j hj i List.mem_cons_self,
        (List.pairwise_cons.1 hlater).1, hpassed, hfailed, rfl⟩

/-- One module file beneath `/w`. -/
def loneTree : FileTree :=
  (FileTree.bare ⟨"/w"⟩).write ⟨"/w/a.ol"⟩ (.text "type Shape")

/-- The workspace of that tree. -/
def loneWorkspace : Workspace := ⟨⟨"/w"⟩, .insertAll .empty [⟨"/w/a.ol"⟩]⟩

/-- A module with a use that its text does not have. -/
def strayModule : Module :=
  ⟨⟨"/w/a.ol"⟩, "type Shape",
    ⟨⟨"/w/a.ol"⟩, [⟨"Shape", .type, ⟨0, 5, 10⟩⟩], [], [("Shape", [⟨0, 5, 10⟩, ⟨7, 0, 5⟩])]⟩⟩

/-- A compiler that reports this module whatever it is asked for. -/
def strayCompiler : Compiler Unit where
  tree _ := loneTree
  compile _ _ := pure (.ok strayModule)

/-- The stray use is found with the good one, and the check settles both. -/
theorem rename_all_or_nothing_stray :
    ∃ v, ReachesVerification strayCompiler .default ⟨"/w/a.ol"⟩ "Shape" ⟨"/w"⟩ () v ∧
      v.found.entries = [(⟨"/w/a.ol"⟩, [⟨0, 5, 10⟩, ⟨7, 0, 5⟩])] ∧
      AllOrNothing v
        (planRenameSymbol strayCompiler .default ⟨"/w/a.ol"⟩ "Shape" ⟨"/w"⟩ ()).1 := by
  have hscan : Workspace.scan loneTree "ol" (loneTree.canonical ⟨"/w"⟩) = .ok loneWorkspace :=
    eq_ok_of_toOption (by decide +kernel)
  have hpaths : loneWorkspace.modulePaths = [⟨"/w/a.ol"⟩] := by decide +kernel
  have hload : loneWorkspace.loadAll strayCompiler () =
      ([(⟨"/w/a.ol"⟩, .ok strayModule)], ()) := by
    simp only [Workspace.loadAll, hpaths]
    rfl
  have hclimb : (ImportIndex.ofModules ([strayModule] ++ [strayModule])).rootBinding
      ⟨⟨"/w/a.ol"⟩, "Shape"⟩ = .ok ⟨⟨"/w/a.ol"⟩, "Shape"⟩ :=
    eq_ok_of_toOption (by decide +kernel)
  have hreached : ReachesVerification strayCompiler .default ⟨"/w/a.ol"⟩ "Shape" ⟨"/w"⟩ ()
      ⟨loneTree, loneWorkspace, ⟨⟨"/w/a.ol"⟩, "Shape"⟩, _⟩ :=
    .intro rfl rfl rfl hscan hload rfl hclimb (by decide +kernel)
  exact ⟨_, hreached, by decide +kernel, rename_all_or_nothing hreached⟩

end SymbolAtlas
