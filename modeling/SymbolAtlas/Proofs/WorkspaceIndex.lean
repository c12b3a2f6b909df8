import SymbolAtlas.Proofs.LinkedIndex

/-!
# The index of a workspace that does not change

When no file changes, every module of a workspace is compiled to the one linked
module at its path, and the index of these modules says the same of bindings as
the modules themselves.  An import of a binding leads to a module that binds its
name, and since linked modules do not import themselves, climbs end.

## Main Definitions

* `IndexesWorkspace`: an index has the compiled modules of a workspace.
* `ClimbsWithin`: a climb along unaliased imports of known files.
* `RenameClass`, `LocatedAt`: the bindings to be renamed, and where they are named.

## Main Statements

* `Grounded.climb_all`: climbs lead from grounded bindings to grounded bindings.
* `Grounded.rootBinding_ends`: where the climb from a grounded binding ends.
* `mentions_spread_iff`: a spread finds where the rename class is named.
* `LocatedAt.holds`: the text has the name there.
-/

namespace SymbolAtlas

variable {config : Config} {tree : FileTree}

/-! ## The modules of a workspace -/

/-- A known file that compiles gives the linked module at its path. -/
theorem Workspace.compiled_of_mem_modulePaths {root : Path} {w : Workspace}
    (hscan : Workspace.scan tree config.extension root = .ok w) {p : Path} {m : Module}
    (hp : p ∈ w.modulePaths) (h : config.compileModule tree p none = .ok m) :
    m.path = p ∧ Linked config tree m ∧ OnDisk tree m := by
  obtain ⟨hpath, hlinked, -, hdisk⟩ := linked_of_compileModule h
  rw [Workspace.canonical_of_mem_modulePaths hscan hp] at hpath
  exact ⟨hpath, hlinked, hdisk rfl⟩

/-- An index has the compiled modules of a workspace and no others. -/
structure IndexesWorkspace (config : Config) (tree : FileTree) (w : Workspace)
    (index : ImportIndex) : Prop where
  consistent : index.Consistent
  mem_modules : ∀ m, m ∈ index.modules ↔
    ∃ p ∈ w.modulePaths, config.compileModule tree p none = .ok m
  linked : ∀ m ∈ index.modules, Linked config tree m ∧ OnDisk tree m ∧ m.path ∈ w.modulePaths

/-- The modules of a workspace and one of them once more make up its index. -/
theorem indexesWorkspace_ofModules {root : Path} {w : Workspace}
    (hscan : Workspace.scan tree config.extension root = .ok w) {modules : List Module}
    (hmodules : ∀ m, m ∈ modules ↔ ∃ p ∈ w.modulePaths, config.compileModule tree p none = .ok m)
    {start : Module} (hstart : start ∈ modules) :
    IndexesWorkspace config tree w (.ofModules (modules ++ [start])) := by
  have hcompiled : ∀ m ∈ modules,
      Linked config tree m ∧ OnDisk tree m ∧ m.path ∈ w.modulePaths := by
    intro m hm
    obtain ⟨p, hp, hcompile⟩ := (hmodules m).1 hm
    obtain ⟨rfl, hlinked, hdisk⟩ := Workspace.compiled_of_mem_modulePaths hscan hp hcompile
    exact ⟨hlinked, hdisk, hp⟩
  have hentered : ∀ m ∈ modules ++ [start], m ∈ modules := by
    intro m hm
    rcases List.mem_append.1 hm with hm | hm
    · exact hm
    · rwa [List.mem_singleton.1 hm]
  have hmem : ∀ m, m ∈ (ImportIndex.ofModules (modules ++ [start])).modules ↔ m ∈ modules := by
    intro m
    refine ⟨fun hm => hentered m (ImportIndex.mem_of_mem_ofModules hm), fun hm => ?_⟩
    obtain ⟨hlinked, hdisk, -⟩ := hcompiled m hm
    cases hfound : (ImportIndex.ofModules (modules ++ [start])).module? m.path with
    | none =>
      rw [ImportIndex.module?_ofModules] at hfound
      have hnone := List.find?_eq_none.1 hfound m (by simp [hm])
      simp at hnone
    | some found =>
      -- what is found at the path of a module is that module
      have hfoundMem := List.mem_of_find?_eq_some hfound
      obtain ⟨hlinked', hdisk', -⟩ :=
        hcompiled found (hentered found (ImportIndex.mem_of_mem_ofModules hfoundMem))
      have hsame : found.path.same m.path = true := by simpa using List.find?_some hfound
      rwa [hlinked'.eq_of_same hdisk' hlinked hdisk hsame] at hfoundMem
  refine ⟨ImportIndex.consistent_ofModules _, fun m => (hmem m).trans (hmodules m), fun m hm => ?_⟩
  exact hcompiled m ((hmem m).1 hm)

namespace IndexesWorkspace

variable {w : Workspace} {index : ImportIndex}

theorem indexesLinked (h : IndexesWorkspace config tree w index) :
    IndexesLinked config tree index where
  consistent := h.consistent
  linked m hm := ⟨(h.linked m hm).1, (h.linked m hm).2.1⟩

/-- A linked module on disk is indexed when its file is known. -/
theorem mem_modules_iff (h : IndexesWorkspace config tree w index) {d : Module}
    (hlinked : Linked config tree d) (hdisk : OnDisk tree d) :
    d ∈ index.modules ↔ d.path ∈ w.modulePaths := by
  constructor
  · exact fun hd => (h.linked d hd).2.2
  · exact fun hp => (h.mem_modules d).2 ⟨d.path, hp, compileModule_of_onDisk hlinked hdisk⟩

/-- The indexed module of a grounded binding is the one that grounds it. -/
theorem module?_of_grounded (h : IndexesWorkspace config tree w index) {b : Binding} {d m : Module}
    (hb : Grounded config tree b d) :
    index.module? b.module = some m ↔ m = d ∧ b.module ∈ w.modulePaths := by
  constructor
  · intro hm
    obtain rfl := h.indexesLinked.eq_of_module? hb hm
    rw [← hb.path]
    exact ⟨rfl, (h.linked m (h.consistent.module?_eq_some_iff.1 hm).1).2.2⟩
  · rintro ⟨rfl, hpath⟩
    rw [← hb.path] at hpath ⊢
    exact h.consistent.module?_eq_some_iff.2
      ⟨(h.mem_modules_iff hb.linked hb.onDisk).2 hpath, Path.same_refl _⟩

end IndexesWorkspace

/-! ## Climbing -/

/-- One step of a climb in a workspace: an unaliased import in a known file leads
from the binding that it makes to the one that it imports. -/
def ClimbsWithin (config : Config) (tree : FileTree) (w : Workspace) (b next : Binding) : Prop :=
  b.module ∈ w.modulePaths ∧ ∃ m s, config.compileModule tree b.module none = .ok m ∧
    m.table.lookup b.name = some (.imported s) ∧ s.aliased = false ∧ next = s.sourceBinding

section Climbing

variable {w : Workspace} {index : ImportIndex} {b next : Binding} {d : Module}

/-- From grounded bindings the steps in the index are those in the workspace. -/
theorem climbsTo_iff_climbsWithin (h : IndexesWorkspace config tree w index)
    (hb : Grounded config tree b d) :
    index.ClimbsTo b next ↔ ClimbsWithin config tree w b next := by
  rw [ImportIndex.climbsTo_iff]
  constructor
  · rintro ⟨m, s, hm, hlookup, hunaliased, hnext⟩
    obtain ⟨rfl, hpath⟩ := (h.module?_of_grounded hb).1 hm
    exact ⟨hpath, m, s, hb.compiled, hlookup, hunaliased, hnext⟩
  · rintro ⟨hpath, m, s, hm, hlookup, hunaliased, hnext⟩
    obtain rfl := Except.ok.inj (hb.compiled.symm.trans hm)
    exact ⟨d, s, (h.module?_of_grounded hb).2 ⟨rfl, hpath⟩, hlookup, hunaliased, hnext⟩

/-- A climb in a workspace passes unaliased imports. -/
theorem takesFrom_of_climb (h : Relation.ReflTransGen (ClimbsWithin config tree w) b next) :
    Relation.ReflTransGen (TakesFrom config tree) b next :=
  h.lift id fun _ _ hstep => hstep.2

/-- A climb leads from a grounded binding to grounded bindings of one name. -/
theorem Grounded.climb_all (hb : Grounded config tree b d)
    (h : Relation.ReflTransGen (ClimbsWithin config tree w) b next) :
    next.name = b.name ∧ ∃ e, Relation.ReflTransGen (DependsOn config tree) d e ∧
      Grounded config tree next e :=
  hb.takesFrom_all (takesFrom_of_climb h)

theorem Grounded.climbsTo_all (h : IndexesWorkspace config tree w index)
    (hb : Grounded config tree b d) :
    Relation.ReflTransGen index.ClimbsTo b next ↔
      Relation.ReflTransGen (ClimbsWithin config tree w) b next := by
  constructor
  · intro hclimb
    induction hclimb with
    | refl => exact .refl
    | tail _ hstep ih =>
      obtain ⟨-, e, -, he⟩ := hb.climb_all ih
      exact ih.tail ((climbsTo_iff_climbsWithin h he).1 hstep)
  · intro hclimb
    induction hclimb with
    | refl => exact .refl
    | tail hbefore hstep ih =>
      obtain ⟨-, e, -, he⟩ := hb.climb_all hbefore
      exact ih.tail ((climbsTo_iff_climbsWithin h he).2 hstep)

/-- Where the climb from a grounded binding ends: at a binding of a known file that
is no unaliased import, or at the first module that is not known. -/
theorem Grounded.rootBinding_ends (h : IndexesWorkspace config tree w index)
    (hb : Grounded config tree b d) :
    ∃ last e, Relation.ReflTransGen (ClimbsWithin config tree w) b last ∧
      Grounded config tree last e ∧
      (last.module ∈ w.modulePaths ∧ (∀ next, ¬ ClimbsWithin config tree w last next) ∧
          index.rootBinding b = .ok last ∨
        last.module ∉ w.modulePaths ∧ index.rootBinding b = .error last.module) := by
  obtain ⟨last, hreach, hend⟩ := h.indexesLinked.rootBinding_ends hb
  have hclimb := (Grounded.climbsTo_all h hb).1 hreach
  obtain ⟨-, e, -, he⟩ := hb.climb_all hclimb
  refine ⟨last, e, hclimb, he, ?_⟩
  rcases hend with ⟨hstep, hresult⟩ | ⟨hstep, hresult⟩
  · left
    refine ⟨?_, fun next hnext => ?_, hresult⟩
    · by_contra hunknown
      have hnone : index.module? last.module = none := by
        cases hm : index.module? last.module with
        | none => rfl
        | some m => exact absurd ((h.module?_of_grounded he).1 hm).2 hunknown
      rw [(ImportIndex.climbStep_eq_error_iff).2 ⟨hnone, rfl⟩] at hstep
      cases hstep
    · have hto : index.climbStep last = .ok (some next) := (climbsTo_iff_climbsWithin h he).2 hnext
      rw [hstep] at hto
      cases hto
  · right
    refine ⟨fun hknown => ?_, hresult⟩
    have hnone := (ImportIndex.climbStep_eq_error_iff.1 hstep).1
    rw [(h.module?_of_grounded he).2 ⟨rfl, hknown⟩] at hnone
    cases hnone

end Climbing

/-! ## Rename classes -/

/-- The bindings that belong together with a binding in a workspace: those that
unaliased imports in known files make of it, of those, and so on. -/
inductive RenameClass (config : Config) (tree : FileTree) (w : Workspace) (root : Binding) :
    Binding → Prop where
  | root : RenameClass config tree w root root
  | step {b : Binding} {p : Path} {m : Module} {s : ImportedSymbol}
      (member : RenameClass config tree w root b) (known : p ∈ w.modulePaths)
      (compiled : config.compileModule tree p none = .ok m) (imported : s ∈ m.table.imported)
      (unaliased : s.aliased = false) (source : s.sourceBinding = b) :
      RenameClass config tree w root ⟨p, s.name⟩

/-- A place in a known file belongs to a binding: it is a use of the name at home,
or the name that an aliased import of the binding mentions. -/
inductive LocatedAt (config : Config) (tree : FileTree) (w : Workspace) (b : Binding) (p : Path)
    (span : Span) : Prop where
  | home {m : Module} (known : p ∈ w.modulePaths)
      (compiled : config.compileModule tree p none = .ok m) (module : b.module = p)
      (use : span ∈ m.table.usesOf b.name)
  | aliased {m : Module} {s : ImportedSymbol} (known : p ∈ w.modulePaths)
      (compiled : config.compileModule tree p none = .ok m) (imported : s ∈ m.table.imported)
      (aliased : s.aliased = true) (source : s.sourceBinding = b) (place : span = s.source.span)

section Classes

variable {root : Path} {w : Workspace} {index : ImportIndex} {owner b : Binding} {d : Module}

/-- The imports of a grounded binding that are indexed are those in known files. -/
theorem mem_importersOf_iff (h : IndexesWorkspace config tree w index)
    (hb : Grounded config tree b d) {i : Importer} :
    i ∈ index.importersOf b ↔ ∃ m s, m.path ∈ w.modulePaths ∧
      config.compileModule tree m.path none = .ok m ∧ s ∈ m.table.imported ∧
      s.sourceBinding = b ∧ i = s.importer m.path := by
  constructor
  · intro hi
    obtain ⟨m, hm, s, hs, hsource, rfl⟩ := h.indexesLinked.exists_of_mem_importersOf hb hi
    obtain ⟨hlinked, hdisk, hpath⟩ := h.linked m hm
    exact ⟨m, s, hpath, compileModule_of_onDisk hlinked hdisk, hs, hsource, rfl⟩
  · rintro ⟨m, s, hpath, hcompile, hs, rfl, rfl⟩
    exact h.indexesLinked.mem_importersOf ((h.mem_modules m).2 ⟨_, hpath, hcompile⟩) hs

/-- The bindings of a rename class are grounded and have one name. -/
theorem RenameClass.grounded (hscan : Workspace.scan tree config.extension root = .ok w)
    (howner : Grounded config tree owner d) (h : RenameClass config tree w owner b) :
    b.name = owner.name ∧ ∃ e, Grounded config tree b e := by
  induction h with
  | root => exact ⟨rfl, d, howner⟩
  | @step b p m s _ known compiled imported unaliased source ih =>
    obtain ⟨rfl, hlinked, hdisk⟩ := Workspace.compiled_of_mem_modulePaths hscan known compiled
    refine ⟨?_, m, hlinked, hdisk, rfl, List.mem_append_right _ (List.mem_map_of_mem imported)⟩
    rw [← ih.1, ← source]
    exact (hlinked.name_of_unaliased imported unaliased).symm

/-- Unaliased imports in the index lead to the bindings of the rename class. -/
theorem reaches_iff_renameClass (hscan : Workspace.scan tree config.extension root = .ok w)
    (h : IndexesWorkspace config tree w index) (howner : Grounded config tree owner d) :
    index.Reaches owner b ↔ RenameClass config tree w owner b := by
  constructor
  · intro hreach
    induction hreach with
    | root => exact .root
    | step _ himported hunaliased ih =>
      obtain ⟨-, e, he⟩ := ih.grounded hscan howner
      obtain ⟨m, s, hpath, hcompile, hs, hsource, rfl⟩ := (mem_importersOf_iff h he).1 himported
      exact .step ih hpath hcompile hs hunaliased hsource
  · intro hclass
    induction hclass with
    | root => exact .root
    | @step b p m s member known compiled imported unaliased source ih =>
      obtain ⟨-, e, he⟩ := member.grounded hscan howner
      obtain ⟨rfl, -⟩ := Workspace.compiled_of_mem_modulePaths hscan known compiled
      have hi := (mem_importersOf_iff h he).2 ⟨m, s, known, compiled, imported, source, rfl⟩
      exact .step ih hi unaliased

/-- What a spread finds in a known file belongs to a binding of the rename class,
and all of this is found. -/
theorem mentions_spread_iff (hscan : Workspace.scan tree config.extension root = .ok w)
    (h : IndexesWorkspace config tree w index) (howner : Grounded config tree owner d) {p : Path}
    (hp : p ∈ w.modulePaths) {span : Span} :
    (index.spread owner).Mentions p span ↔
      ∃ b, RenameClass config tree w owner b ∧ LocatedAt config tree w b p span := by
  rw [ImportIndex.mentions_spread]
  simp only [reaches_iff_renameClass hscan h howner]
  refine exists_congr fun b => and_congr_right fun hclass => ?_
  obtain ⟨-, e, he⟩ := hclass.grounded hscan howner
  constructor
  · rintro (⟨hsame, m, hm, huse⟩ | ⟨i, hi, haliased, hsame, rfl⟩)
    · obtain ⟨rfl, hknown⟩ := (h.module?_of_grounded he).1 hm
      obtain rfl := Workspace.eq_of_same_of_mem_modulePaths hscan hknown hp hsame
      exact .home hknown he.compiled rfl huse
    · obtain ⟨m, s, hknown, hcompile, hs, hsource, rfl⟩ := (mem_importersOf_iff h he).1 hi
      obtain rfl := Workspace.eq_of_same_of_mem_modulePaths hscan hknown hp hsame
      exact .aliased hknown hcompile hs haliased hsource rfl
  · rintro (⟨-, hcompile', rfl, huse⟩ | ⟨-, hcompile', hs, haliased, hsource, rfl⟩)
    · obtain rfl := Except.ok.inj (he.compiled.symm.trans hcompile')
      exact .inl ⟨Path.same_refl _, e, (h.module?_of_grounded he).2 ⟨rfl, hp⟩, huse⟩
    · obtain ⟨rfl, -⟩ := Workspace.compiled_of_mem_modulePaths hscan hp hcompile'
      refine .inr ⟨_, (mem_importersOf_iff h he).2 ⟨_, _, hp, hcompile', hs, hsource, rfl⟩,
        haliased, Path.same_refl _, rfl⟩

/-- A spread lists known files, by their canonical paths. -/
theorem fst_mem_modulePaths_of_mem_spread
    (hscan : Workspace.scan tree config.extension root = .ok w)
    (h : IndexesWorkspace config tree w index) (howner : Grounded config tree owner d)
    {entry : Path × List Span} (hentry : entry ∈ (index.spread owner).entries) :
    entry.1 ∈ w.modulePaths := by
  obtain ⟨b, hreach, hspelled⟩ := ImportIndex.fst_of_mem_spread hentry
  obtain ⟨-, e, he⟩ := ((reaches_iff_renameClass hscan h howner).1 hreach).grounded hscan howner
  rcases hspelled with ⟨heq, hsome⟩ | ⟨i, hi, -, heq⟩
  · obtain ⟨m, hm⟩ := Option.isSome_iff_exists.1 hsome
    rw [heq]
    exact ((h.module?_of_grounded he).1 hm).2
  · obtain ⟨m, s, hknown, -, -, -, rfl⟩ := (mem_importersOf_iff h he).1 hi
    rw [heq]
    exact hknown

/-- The places of a rename class hold the name of the class. -/
theorem LocatedAt.holds (hscan : Workspace.scan tree config.extension root = .ok w)
    (howner : Grounded config tree owner d) (hclass : RenameClass config tree w owner b)
    {p : Path} {span : Span} (h : LocatedAt config tree w b p span) :
    ∃ m, config.compileModule tree p none = .ok m ∧ holds m.source span owner.name = true := by
  have hname := (hclass.grounded hscan howner).1
  cases h with
  | @home m known compiled module use =>
    obtain ⟨_, _, hindexes⟩ := (linked_of_compileModule compiled).2.1.exists_indexesReferences
    exact ⟨m, compiled, hname ▸ hindexes.holds_use b.name span use⟩
  | @aliased m s known compiled imported _ source place =>
    obtain ⟨_, _, hindexes⟩ := (linked_of_compileModule compiled).2.1.exists_indexesReferences
    have hsource : s.source.name = owner.name := (congrArg Binding.name source).trans hname
    refine ⟨m, compiled, ?_⟩
    rw [place, ← hsource]
    exact hindexes.holds_source s imported

/-- A bound name is used where it is bound. -/
theorem Grounded.exists_use (h : Grounded config tree b d) :
    ∃ span, span ∈ d.table.usesOf b.name := by
  obtain ⟨_, _, hindexes⟩ := h.linked.exists_indexesReferences
  rcases List.mem_append.1 h.bound with hmem | hmem
  · obtain ⟨s, hs, hname⟩ := List.mem_map.1 hmem
    exact ⟨s.span, hname ▸ hindexes.declared s hs⟩
  · obtain ⟨s, hs, hname⟩ := List.mem_map.1 hmem
    exact ⟨s.span, hname ▸ hindexes.imported s hs⟩

/-- The spread of a binding in a known file finds something. -/
theorem spread_ne_nil (hscan : Workspace.scan tree config.extension root = .ok w)
    (h : IndexesWorkspace config tree w index) (howner : Grounded config tree owner d)
    (hknown : owner.module ∈ w.modulePaths) : (index.spread owner).entries ≠ [] := by
  obtain ⟨span, hspan⟩ := howner.exists_use
  obtain ⟨entry, hentry, -⟩ := (mentions_spread_iff hscan h howner hknown).2
    ⟨owner, .root, .home hknown howner.compiled rfl hspan⟩
  exact List.ne_nil_of_mem hentry

end Classes

end SymbolAtlas
