import Mathlib.Data.List.Pairwise
import SymbolAtlas.Proofs.Sessions

/-!
# What a workspace lists while it is used

The texts of a workspace are kept in the roster that also lists its files.  A path whose text is
asked for is therefore listed from then on, wherever it lies, and whether it can be read or not:
it is counted, it is among the module paths, and it is compiled when all modules are.

## Main Definitions

* `ListsAsked`: what is listed once texts were asked for.

## Main Statements

* `Workspace.paths_source`: asking for a text enters the path.
* `Session.paths_after`: what a session lists.
* `session_listsAsked`: a session lists what was found and what was asked for.
-/

namespace SymbolAtlas

variable {σ : Type}

namespace FileRoster

theorem isSome_idOf?_iff {r : FileRoster} {p : Path} :
    (r.idOf? p).isSome ↔ ∃ q ∈ r.paths, p.same q = true := by
  simp [idOf?_eq, Path.same_comm p]

/-- A number is found again in a roster that has more files behind. -/
theorem idOf?_of_front {r r' : FileRoster} (hfront : r.paths <+: r'.paths) {p : Path} {id : FileId}
    (hid : r.idOf? p = some id) : r'.idOf? p = some id := by
  rw [idOf?_eq] at hid ⊢
  obtain ⟨index, hfind, rfl⟩ := Option.map_eq_some_iff.1 hid
  obtain ⟨more, hmore⟩ := hfront
  rw [← hmore, List.findIdx?_append, hfind]
  rfl

/-- It leads to the same path there. -/
theorem path?_of_front {r r' : FileRoster} (hfront : r.paths <+: r'.paths) {id : FileId}
    (hid : id ∈ r.ids) : r'.path? id = r.path? id := by
  rw [ids_eq] at hid
  obtain ⟨index, hindex, rfl⟩ := List.mem_map.1 hid
  rw [List.mem_range, ← length_paths] at hindex
  obtain ⟨more, hmore⟩ := hfront
  rw [path?_eq, ← hmore, List.getElem?_append_left hindex, path?_eq]

end FileRoster

namespace Workspace

/-- Whatever the answer is, the path is entered. -/
theorem paths_source (w : Workspace) (tree : FileTree) (p : Path) :
    (w.source tree p).2.roster.paths = (w.roster.insert (tree.canonical p)).2.paths := by
  unfold source
  dsimp only
  split
  · rfl
  · split <;> rfl

theorem root_source (w : Workspace) (tree : FileTree) (p : Path) :
    (w.source tree p).2.root = w.root := by
  unfold source
  dsimp only
  split
  · rfl
  · split <;> rfl

/-- If no file is known twice, path order leaves none out. -/
theorem mem_modulePaths_iff {w : Workspace}
    (h : w.roster.paths.Pairwise fun p q => q.same p = false) {p : Path} :
    p ∈ w.modulePaths ↔ p ∈ w.roster.paths := by
  refine ⟨mem_of_mem_sorted, fun hp => ?_⟩
  obtain ⟨q, hq, hneither⟩ := exists_mem_sorted Path.before_irrefl hp
  have hsame := Path.same_iff_neither_before.2 hneither
  have hsymm : Std.Symm fun p q : Path => q.same p = false :=
    ⟨fun p q hne => Path.same_comm p q ▸ hne⟩
  obtain rfl : p = q := by
    by_contra hne
    rw [h.forall (mem_of_mem_sorted hq) hp (Ne.symm hne)] at hsame
    cases hsame
  exact hq

/-- Whatever the compiler does, all files are compiled in path order. -/
theorem map_fst_loadAll (w : Workspace) (c : Compiler σ) (world : σ) :
    (w.loadAll c world).1.map (·.1) = w.modulePaths := by
  unfold loadAll
  induction w.modulePaths generalizing world with
  | nil => rfl
  | cons p paths ih =>
    rw [List.mapM_cons]
    simp only [stateM_bind_apply, stateM_pure_apply, List.map_cons, ih]

end Workspace

namespace Session

variable {c : Compiler σ} {s : Session σ}

/-- In a session in which every path is known once, the known paths are those there were and those
whose texts were asked for, each in the spelling that came first. -/
theorem paths_after (h : s.workspace.roster.paths.Pairwise (Path.same · · = false))
    (steps : List (SessionStep σ)) :
    (s.after c steps).workspace.roster.paths =
      (s.workspace.roster.paths ++ (readings c s steps).map (·.path)).eraseDupsBy Path.same := by
  induction steps using List.reverseRecOn with
  | nil =>
    rw [readings, List.map_nil, List.append_nil]
    exact (eraseDupsBy_of_pairwise (h.imp fun hne => Path.same_comm _ _ ▸ hne)).symm
  | append_singleton steps step ih =>
    rw [after_concat, readings_concat]
    obtain ⟨hreading, hworkspace⟩ | ⟨tree, p, hreading, hworkspace⟩ :=
      step.applyTo_cases c (s.after c steps)
    · rw [hworkspace, hreading, Option.toList_none, List.append_nil]
      exact ih
    · have hflip : (tree.canonical p).same = (·.same (tree.canonical p)) :=
        funext fun q => Path.same_comm _ q
      rw [hworkspace, hreading, Option.toList_some, List.map_append, List.map_singleton,
        ← List.append_assoc, eraseDupsBy_concat, Workspace.paths_source, FileRoster.paths_insert,
        ih, hflip]

theorem root_after (steps : List (SessionStep σ)) :
    (s.after c steps).workspace.root = s.workspace.root := by
  induction steps using List.reverseRecOn with
  | nil => rfl
  | append_singleton steps step ih =>
    rw [after_concat]
    obtain ⟨-, hworkspace⟩ | ⟨tree, p, -, hworkspace⟩ := step.applyTo_cases c (s.after c steps)
    · rw [hworkspace, ih]
    · rw [hworkspace, Workspace.root_source, ih]

end Session

/-- What a workspace lists after the texts of some paths were asked for. -/
structure ListsAsked (found : Workspace) (asked : List Path) (w : Workspace) : Prop where
  /-- The root stays. -/
  root : w.root = found.root
  /-- In the order of their numbers, the files are those that were found and then those that were
  asked for, each once and in the spelling that came first. -/
  paths : w.roster.paths = (found.roster.paths ++ asked).eraseDupsBy Path.same
  /-- A file that was found keeps its number, which leads to it as before. -/
  known : ∀ p id, found.roster.idOf? p = some id → w.roster.idOf? p = some id
  numbers : ∀ id ∈ found.roster.ids, w.roster.path? id = found.roster.path? id
  /-- All these files are listed. -/
  listed : ∀ p, p ∈ w.modulePaths ↔ p ∈ w.roster.paths
  /-- All that are listed are compiled, in this order. -/
  loaded : ∀ {σ : Type} (c : Compiler σ) (world : σ),
    (w.loadAll c world).1.map (·.1) = w.modulePaths
  /-- There are the numbers that were given at first exactly when only files were asked for that
  had been found. -/
  ids_iff : w.roster.ids = found.roster.ids ↔ ∀ p ∈ asked, (found.roster.idOf? p).isSome
  /-- So it is with the count of the files. -/
  size_iff : w.roster.size = found.roster.size ↔ ∀ p ∈ asked, (found.roster.idOf? p).isSome
  /-- So it is with what is listed and compiled. -/
  modulePaths_iff : w.modulePaths = found.modulePaths ↔
    ∀ p ∈ asked, (found.roster.idOf? p).isSome

/-- The order of numbers decides what is listed. -/
theorem listsAsked_of_paths {found w : Workspace} {asked : List Path}
    (hfound : found.roster.paths.Pairwise (Path.before · · = true)) (hroot : w.root = found.root)
    (hpaths : w.roster.paths = (found.roster.paths ++ asked).eraseDupsBy Path.same) :
    ListsAsked found asked w := by
  have hdistinct : found.roster.paths.Pairwise fun p q => q.same p = false :=
    hfound.imp fun hbefore => Path.same_comm _ _ ▸ Path.same_eq_false_of_before hbefore
  have hlisted : ∀ p, p ∈ w.modulePaths ↔ p ∈ w.roster.paths :=
    fun p => Workspace.mem_modulePaths_iff (hpaths ▸ pairwise_eraseDupsBy _ _)
  have hfront : found.roster.paths <+: w.roster.paths := by
    have hkept := eraseDupsBy_prefix_append Path.same found.roster.paths asked
    rwa [eraseDupsBy_of_pairwise hdistinct, ← hpaths] at hkept
  have hpaths_iff : w.roster.paths = found.roster.paths ↔
      ∀ p ∈ asked, (found.roster.idOf? p).isSome := by
    simp only [hpaths, FileRoster.isSome_idOf?_iff]
    exact eraseDupsBy_append_eq_iff Path.same_refl hdistinct
  -- nothing that was found is lost, so the count tells whether something came
  have hsize_iff : w.roster.size = found.roster.size ↔
      ∀ p ∈ asked, (found.roster.idOf? p).isSome := by
    rw [← hpaths_iff]
    rw [← FileRoster.length_paths, ← FileRoster.length_paths]
    exact ⟨fun hsize => (hfront.eq_of_length hsize.symm).symm, congrArg List.length⟩
  refine ⟨hroot, hpaths, fun _ _ => FileRoster.idOf?_of_front hfront,
    fun _ => FileRoster.path?_of_front hfront, hlisted, w.map_fst_loadAll, ?_, hsize_iff, ?_⟩
  · rw [← hsize_iff, FileRoster.ids_eq, FileRoster.ids_eq]
    constructor
    · intro hids
      simpa using congrArg List.length hids
    · intro hsize
      rw [hsize]
  · constructor
    · intro hsame p hp
      obtain ⟨q, hq, hpq⟩ :=
        exists_mem_eraseDupsBy Path.same_refl (List.mem_append_right found.roster.paths hp)
      rw [← hpaths, ← hlisted, hsame] at hq
      exact FileRoster.isSome_idOf?_iff.2 ⟨q, mem_of_mem_sorted hq, hpq⟩
    · intro hasked
      rw [Workspace.modulePaths, hpaths_iff.2 hasked, Workspace.modulePaths]

/-- A session with a freshly scanned workspace lists the files that the scan has found and those
whose texts were asked for. -/
theorem session_listsAsked {tree : FileTree} {extension : String} {root : Path} {w : Workspace}
    (h : Workspace.scan tree extension root = .ok w) (c : Compiler σ) (world : σ)
    (steps : List (SessionStep σ)) :
    ListsAsked w ((Session.readings c ⟨world, w⟩ steps).map (·.path))
      (Session.after c ⟨world, w⟩ steps).workspace := by
  have hordered := Workspace.pairwise_paths_of_scan h
  refine listsAsked_of_paths hordered (Session.root_after steps) ?_
  exact Session.paths_after (hordered.imp Path.same_eq_false_of_before) steps

/-- The module is read in two spellings, the notes are read, and a file that is missing is not. -/
def strayReads : List (SessionStep FileTree) :=
  [.source ⟨"/w/./a.ol"⟩, .source ⟨"/w/a.ol"⟩, .source ⟨"/w/notes.txt"⟩, .source ⟨"/w/gone.ol"⟩]

/-- The module keeps its number, and the two other files are listed and compiled with it. -/
theorem session_listsAsked_stray :
    Workspace.scan notesTree "ol" ⟨"/w"⟩ = .ok notesWorkspace ∧
      (Session.after Config.default.compiler ⟨notesTree, notesWorkspace⟩
        strayReads).workspace.roster.paths =
          [⟨"/w/a.ol"⟩, ⟨"/w/notes.txt"⟩, ⟨"/w/gone.ol"⟩] ∧
      (((Session.after Config.default.compiler ⟨notesTree, notesWorkspace⟩
        strayReads).workspace.loadAll Config.default.compiler notesTree).1.map (·.1)) =
          [⟨"/w/a.ol"⟩, ⟨"/w/gone.ol"⟩, ⟨"/w/notes.txt"⟩] := by
  have hscan : Workspace.scan notesTree "ol" ⟨"/w"⟩ = .ok notesWorkspace :=
    eq_ok_of_toOption (by decide +kernel)
  have hlists := session_listsAsked hscan Config.default.compiler notesTree strayReads
  refine ⟨hscan, ?_, ?_⟩
  · rw [hlists.paths]
    decide +kernel
  · rw [hlists.loaded]
    decide +kernel

/-- Not every session leaves the listed modules as they were found, even if nothing that is asked
for in it can be read. -/
theorem session_lists_missing :
    ¬ ∀ (tree : FileTree) (extension : String) (root : Path) (w : Workspace),
      Workspace.scan tree extension root = .ok w →
      ∀ (config : Config) (world : FileTree) (steps : List (SessionStep FileTree)),
        (∀ r ∈ Session.readings config.compiler ⟨world, w⟩ steps, r.answer.toOption = none) →
        (Session.after config.compiler ⟨world, w⟩ steps).workspace.modulePaths =
          w.modulePaths := by
  intro hstays
  have hscan : Workspace.scan notesTree "ol" ⟨"/w"⟩ = .ok notesWorkspace :=
    eq_ok_of_toOption (by decide +kernel)
  have hsame := hstays notesTree "ol" ⟨"/w"⟩ notesWorkspace hscan .default notesTree
    [.source ⟨"/w/gone.ol"⟩] (by decide +kernel)
  exact absurd hsame (by decide +kernel)

end SymbolAtlas
