import SymbolAtlas.Proofs.Importers

/-!
# Indexes that change

An index is built from modules, and modules are inserted into it and removed from
it as files change.  Whatever its history, the index has each path once, it has the
imports of each binding as its modules have them, and it answers every question as
an index would that is built anew from the modules it has now.

## Main Definitions

* `IndexStep`, `ImportIndex.after`: a change of an index, and the index after some
  changes.
* `modulesAfter`: the modules that are indexed after some changes.
* `ImportIndex.Alike`: two indexes answer every question alike.
* `TracksModules`: an index has not drifted from its modules.

## Main Statements

* `ImportIndex.Consistent.alike`: consistent indexes of the same modules are alike.
* `ImportIndex.consistent_after`: an index stays consistent along its history.
* `index_tracksModules`: an index does not drift from its modules.
-/

namespace SymbolAtlas

/-! ## Histories -/

/-- One change of an index. -/
inductive IndexStep where
  /-- The index is built anew from some modules. -/
  | rebuild (modules : List Module)
  | insert (m : Module)
  | remove (path : Path)

/-- The index after one more change. -/
def IndexStep.applyTo (index : ImportIndex) : IndexStep → ImportIndex
  | rebuild modules => .ofModules modules
  | insert m => index.insert m
  | remove path => index.remove path

/-- The index after some changes, of which the first is made to the index of no
modules. -/
def ImportIndex.after (steps : List IndexStep) : ImportIndex :=
  steps.foldl IndexStep.applyTo .empty

/-- A list of modules with one more at its end, which takes the place of those with
the same path. -/
def enterModule (modules : List Module) (m : Module) : List Module :=
  modules.filter (!·.path.same m.path) ++ [m]

/-- The modules that are indexed after one more change. -/
def IndexStep.modulesAfter (modules : List Module) : IndexStep → List Module
  | rebuild fresh => fresh.foldl enterModule []
  | insert m => enterModule modules m
  | remove path => modules.filter (!·.path.same path)

/-- The modules that are indexed after some changes. -/
def modulesAfter (steps : List IndexStep) : List Module :=
  steps.foldl IndexStep.modulesAfter []

namespace ImportIndex

variable {index other : ImportIndex}

/-! ## Each change keeps an index consistent -/

theorem Consistent.modules_foldl_insert (h : index.Consistent) (modules : List Module) :
    (modules.foldl ImportIndex.insert index).modules = modules.foldl enterModule index.modules := by
  induction modules generalizing index with
  | nil => rfl
  | cons m modules ih =>
    obtain ⟨hinsert, hmodules⟩ := h.insert m
    rw [List.foldl_cons, List.foldl_cons, ih hinsert, hmodules, enterModule]

/-- One change keeps an index consistent and has the listed modules. -/
theorem Consistent.applyTo (h : index.Consistent) (step : IndexStep) :
    (step.applyTo index).Consistent ∧
      (step.applyTo index).modules = step.modulesAfter index.modules := by
  cases step with
  | rebuild modules =>
    exact ⟨consistent_ofModules modules, consistent_empty.modules_foldl_insert modules⟩
  | insert m => exact h.insert m
  | remove path => exact h.remove path

/-- An index stays consistent along its history, with the listed modules. -/
theorem consistent_after (steps : List IndexStep) :
    (after steps).Consistent ∧ (after steps).modules = modulesAfter steps := by
  have hrun : ∀ {index : ImportIndex}, index.Consistent →
      (steps.foldl IndexStep.applyTo index).Consistent ∧
        (steps.foldl IndexStep.applyTo index).modules =
          steps.foldl IndexStep.modulesAfter index.modules := by
    induction steps with
    | nil => exact fun h => ⟨h, rfl⟩
    | cons step steps ih =>
      intro index h
      obtain ⟨hstep, hmodules⟩ := h.applyTo step
      rw [List.foldl_cons, List.foldl_cons, ← hmodules]
      exact ih hstep
  exact hrun consistent_empty

/-! ## Building an index anew -/

/-- Modules with different paths are entered one after the other. -/
theorem foldl_enterModule {old modules : List Module}
    (h : (old ++ modules).Pairwise fun m m' => m.path.same m'.path = false) :
    modules.foldl enterModule old = old ++ modules := by
  induction modules generalizing old with
  | nil => rw [List.foldl_nil, List.append_nil]
  | cons m modules ih =>
    have hkept : old.filter (!·.path.same m.path) = old := by
      refine List.filter_eq_self.2 fun earlier hearlier => ?_
      simp [(List.pairwise_append.1 h).2.2 earlier hearlier m List.mem_cons_self]
    rw [List.append_cons] at h ⊢
    rw [List.foldl_cons, enterModule, hkept, ih h]

/-- An index that is built anew from the modules of another has these modules. -/
theorem Consistent.modules_ofModules (h : index.Consistent) :
    (ofModules index.modules).modules = index.modules :=
  (consistent_empty.modules_foldl_insert index.modules).trans (foldl_enterModule h.modules)

/-- Two indexes answer every question alike: which modules they have, what imports a
binding, which binding owns a name, and where a binding is named. -/
structure Alike (index other : ImportIndex) : Prop where
  modules : index.modules = other.modules
  module? : ∀ p, index.module? p = other.module? p
  importersOf : ∀ b, index.importersOf b = other.importersOf b
  rootBinding : ∀ b, index.rootBinding b = other.rootBinding b
  spread : ∀ b, index.spread b = other.spread b

/-- A climb asks only for modules. -/
theorem climb_congr (h : ∀ p, index.module? p = other.module? p) (steps : Nat)
    (visited : List Binding) (b : Binding) :
    index.climb steps visited b = other.climb steps visited b := by
  have hstep : ∀ b, index.climbStep b = other.climbStep b := fun b => by
    rw [climbStep, climbStep, h]
  induction steps generalizing visited b with
  | zero => rfl
  | succ steps ih => simp only [climb, hstep, ih]

/-- A spread asks only for modules and imports. -/
theorem spread_congr (hmodule : ∀ p, index.module? p = other.module? p)
    (himporters : ∀ b, index.importersOf b = other.importersOf b) (root : Binding) :
    index.spread root = other.spread root := by
  obtain ⟨last, hworks, heq⟩ := index.worksOff_spread root
  obtain ⟨last', hworks', heq'⟩ := other.worksOff_spread root
  rw [heq, heq', (hworks.of_eq hmodule himporters).unique hworks']

/-- Consistent indexes of the same modules are alike. -/
theorem Consistent.alike (h : index.Consistent) (h' : other.Consistent)
    (hmodules : index.modules = other.modules) : index.Alike other := by
  have hmodule : ∀ p, index.module? p = other.module? p := fun p => by
    rw [ImportIndex.module?, ImportIndex.module?, hmodules]
  have himporters : ∀ b, index.importersOf b = other.importersOf b := fun b => by
    rw [h.importersOf_eq, h'.importersOf_eq, hmodules]
  refine ⟨hmodules, hmodule, himporters, fun b => ?_, spread_congr hmodule himporters⟩
  rw [ImportIndex.rootBinding, ImportIndex.rootBinding, importCount, importCount, hmodules]
  exact climb_congr hmodule _ _ b

end ImportIndex

/-! ## An index does not drift from its modules -/

/-- An index with some history has not drifted from its modules. -/
structure TracksModules (steps : List IndexStep) (index : ImportIndex) : Prop where
  /-- It has the modules that its history leaves, in order. -/
  modules : index.modules = modulesAfter steps
  /-- It has no path twice, in no two spellings. -/
  distinct : index.modules.Pairwise fun m m' => m.path.same m'.path = false
  /-- It has the imports of a binding as its modules have them, module by module and
  in the order of their tables. -/
  importersOf_eq : ∀ b, index.importersOf b = importsIn index.modules b
  /-- It cannot be told from an index that is built anew. -/
  rebuilt : index.Alike (.ofModules index.modules)

/-- Whatever its history, an index has not drifted from its modules. -/
theorem index_tracksModules (steps : List IndexStep) :
    TracksModules steps (ImportIndex.after steps) := by
  obtain ⟨hconsistent, hmodules⟩ := ImportIndex.consistent_after steps
  refine ⟨hmodules, hconsistent.modules, hconsistent.importersOf_eq, ?_⟩
  exact hconsistent.alike (ImportIndex.consistent_ofModules _) hconsistent.modules_ofModules.symm

end SymbolAtlas
