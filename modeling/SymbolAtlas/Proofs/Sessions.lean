import SymbolAtlas.Proofs.FolderClimb
import SymbolAtlas.Proofs.RosterHistory
import SymbolAtlas.Proofs.ScanOrder

/-!
# Workspaces in use

A workspace is scanned once and then used while files come, change and go.  The text of a file is
read when it is asked for first and kept from then on, under the canonical path that the file had
at that moment.  What cannot be read is not kept, so it is tried again.

## Main Definitions

* `FileRoster.textOf?`: the text that is kept for a path.
* `Session`, `SessionStep`: a workspace in a world, and what can happen to the two.
* `Reading`, `Session.readings`: what was asked for in a session, and what the answers were.
* `ReadsOnce`: files are read once, and only success is kept.

## Main Statements

* `FileTree.same_canonical`: a canonical path leads to no other place when the tree changes.
* `Workspace.KeepsRead.fst_source`, `Workspace.KeepsRead.textOf?_source`: one request for a text.
* `SessionStep.applyTo_cases`: what one step can do to the workspace.
* `Session.textOf?_after_eq_some_iff`: what a session keeps.
* `session_readsOnce`: a session reads each file once.
-/

namespace SymbolAtlas

/-! ## Canonical paths in other trees -/

/-- A path through names leads through these names or nowhere, whatever the tree is. -/
theorem FileTree.same_canonical {p : Path} {names : List EntryName}
    (h : p.same (.ofNames names) = true) (tree : FileTree) :
    (tree.canonical p).same p = true := by
  cases hlocate : tree.locate p with
  | error cause =>
    rw [canonical, hlocate]
    exact p.same_refl
  | ok reached =>
    have hfollow : tree.followComponents (.root :: names.map (.name ·.text)) = .ok reached := by
      rw [← Path.components_ofNames, ← Path.same_iff.1 h]
      exact followComponents_of_baseOf (baseOf_of_locate hlocate)
    have hsegments : (Component.root :: names.map (.name ·.text)).filterMap Component.segment? =
        names.map (·.text) := by
      rw [List.filterMap_cons_none rfl, List.filterMap_map, ← List.filterMap_eq_map]
      rfl
    rw [followComponents, hsegments, List.head?_cons, if_pos rfl] at hfollow
    have hsteps : ∀ segment ∈ names.map (·.text), Path.IsStep segment := by
      intro segment hsegment
      obtain ⟨name, -, rfl⟩ := List.mem_map.1 hsegment
      exact Path.isStep_entryName name
    obtain ⟨more, hreached, htexts⟩ := follow_steps hsteps hfollow
    have hnames : more = names :=
      (List.map_inj_right fun _ _ => EntryName.eq_of_text).1 htexts
    rw [canonical, hlocate, hreached, hnames]
    exact Path.same_symm h

/-! ## One request for a text -/

namespace FileRoster

variable {r : FileRoster} {p q : Path}

/-- The text that is kept for a path. -/
def textOf? (r : FileRoster) (p : Path) : Option String := (r.idOf? p).bind r.text?

theorem textOf?_congr (h : p.same q = true) : r.textOf? p = r.textOf? q := by
  rw [textOf?, idOf?_congr h, textOf?]

theorem textOf?_insert (r : FileRoster) (p q : Path) :
    (r.insert p).2.textOf? q = if p.same q then r.text? (r.insert p).1 else r.textOf? q := by
  have htext : (r.insert p).2.text? = r.text? := funext (r.text?_insert p)
  rw [textOf?, htext, idOf?_insert]
  split
  · rfl
  · rfl

theorem textOf?_setText {id : FileId} (h : r.idOf? p = some id) (text : String) (q : Path) :
    (r.setText id text).textOf? q = if p.same q then some text else r.textOf? q := by
  show (r.idOf? q).bind (r.setText id text).text? = _
  split
  · next hsame => rw [← idOf?_congr hsame, h, Option.bind_some, text?_setText, if_pos rfl]
  · next hsame =>
    rw [textOf?]
    cases hq : r.idOf? q with
    | none => rfl
    | some other =>
      have hother : other ≠ id := by
        rintro rfl
        exact hsame (same_of_idOf? h hq)
      rw [Option.bind_some, Option.bind_some, text?_setText, if_neg hother]

end FileRoster

namespace Workspace

variable {w : Workspace}

/-- Texts are kept under the numbers of files, and only for paths through names. -/
structure KeepsRead (w : Workspace) : Prop where
  numbered : ∀ id, (w.roster.text? id).isSome → id.index < w.roster.size
  rooted : ∀ p text, w.roster.textOf? p = some text → ∃ names, p.same (.ofNames names) = true

theorem KeepsRead.text?_insert (h : w.KeepsRead) (p : Path) :
    w.roster.text? (w.roster.insert p).1 = w.roster.textOf? p := by
  rw [FileRoster.fst_insert, FileRoster.textOf?]
  cases w.roster.idOf? p with
  | some id => rfl
  | none =>
    -- a new file gets a number under which there is no text yet
    rw [Option.getD_none, Option.bind_none, ← Option.not_isSome_iff_eq_none]
    exact fun hsome => Nat.lt_irrefl _ (h.numbered _ hsome)

/-- Either what is kept is given and the path is only entered, or the file is read and its text is
kept. -/
theorem KeepsRead.source_cases (h : w.KeepsRead) (tree : FileTree) (p : Path) :
    (∃ text, w.roster.textOf? (tree.canonical p) = some text ∧
        w.source tree p =
          (.ok text, { w with roster := (w.roster.insert (tree.canonical p)).2 })) ∨
      w.roster.textOf? (tree.canonical p) = none ∧
        ((∃ cause, tree.readText (tree.canonical p) = .error cause ∧
            w.source tree p =
              (.error cause, { w with roster := (w.roster.insert (tree.canonical p)).2 })) ∨
          ∃ text, tree.readText (tree.canonical p) = .ok text ∧
            w.source tree p = (.ok text,
              { w with
                roster := (w.roster.insert (tree.canonical p)).2.setText
                  (w.roster.insert (tree.canonical p)).1 text })) := by
  unfold source
  simp only [FileRoster.text?_insert, h.text?_insert]
  cases w.roster.textOf? (tree.canonical p) with
  | some text => exact .inl ⟨text, rfl, rfl⟩
  | none =>
    cases tree.readText (tree.canonical p) with
    | error cause => exact .inr ⟨rfl, .inl ⟨cause, rfl, rfl⟩⟩
    | ok text => exact .inr ⟨rfl, .inr ⟨text, rfl, rfl⟩⟩

/-- The answer is the text that is kept, or else what reading the file gives. -/
theorem KeepsRead.fst_source (h : w.KeepsRead) (tree : FileTree) (p : Path) :
    (w.source tree p).1 = match w.roster.textOf? (tree.canonical p) with
      | some text => .ok text
      | none => tree.readText (tree.canonical p) := by
  obtain ⟨text, hkept, hsource⟩ | ⟨hkept, ⟨cause, hread, hsource⟩ | ⟨text, hread, hsource⟩⟩ :=
    h.source_cases tree p
  · rw [hsource, hkept]
  · rw [hsource, hkept, hread]
  · rw [hsource, hkept, hread]

/-- The answer is kept if it is a text, and for other paths nothing changes. -/
theorem KeepsRead.textOf?_source (h : w.KeepsRead) (tree : FileTree) (p q : Path) :
    (w.source tree p).2.roster.textOf? q =
      if (tree.canonical p).same q then (w.source tree p).1.toOption
      else w.roster.textOf? q := by
  obtain ⟨text, hkept, hsource⟩ | ⟨hkept, ⟨cause, hread, hsource⟩ | ⟨text, hread, hsource⟩⟩ :=
    h.source_cases tree p
  · rw [hsource, FileRoster.textOf?_insert, h.text?_insert, hkept]
    rfl
  · rw [hsource, FileRoster.textOf?_insert, h.text?_insert, hkept]
    rfl
  · have hid : (w.roster.insert (tree.canonical p)).2.idOf? (tree.canonical p) =
        some (w.roster.insert (tree.canonical p)).1 := by
      rw [FileRoster.idOf?_insert, if_pos (Path.same_refl _)]
    rw [hsource, FileRoster.textOf?_setText hid, FileRoster.textOf?_insert]
    split
    · rfl
    · rfl

/-- Where a text is answered, the canonical path goes through names. -/
theorem KeepsRead.exists_names_of_source (h : w.KeepsRead) {tree : FileTree} {p : Path}
    {text : String} (hsource : (w.source tree p).1 = .ok text) :
    ∃ names, (tree.canonical p).same (.ofNames names) = true := by
  rw [h.fst_source] at hsource
  split at hsource
  · next kept hkept => exact h.rooted _ kept hkept
  · obtain ⟨names, hlocate, -⟩ := FileTree.exists_names_of_readText hsource
    refine ⟨names, ?_⟩
    rw [← tree.canonical_canonical, FileTree.canonical, hlocate]
    exact Path.same_refl _

/-- Asking for a text keeps texts in their place. -/
theorem KeepsRead.source (h : w.KeepsRead) (tree : FileTree) (p : Path) :
    (w.source tree p).2.KeepsRead := by
  constructor
  · have hgrows := w.roster.size_le_insert (tree.canonical p)
    have hold : ∀ id, (w.roster.text? id).isSome →
        id.index < (w.roster.insert (tree.canonical p)).2.size :=
      fun id hid => Nat.lt_of_lt_of_le (h.numbered id hid) hgrows
    obtain ⟨text, -, hsource⟩ | ⟨-, ⟨cause, -, hsource⟩ | ⟨text, -, hsource⟩⟩ :=
      h.source_cases tree p
    · simpa only [hsource, FileRoster.text?_insert] using hold
    · simpa only [hsource, FileRoster.text?_insert] using hold
    · intro id hid
      simp only [hsource, FileRoster.text?_setText, FileRoster.text?_insert] at hid ⊢
      split at hid
      · next heq => exact heq ▸ w.roster.lt_size_insert (tree.canonical p)
      · exact hold id hid
  · intro q text hq
    rw [h.textOf?_source] at hq
    split at hq
    · next hsame =>
      obtain ⟨names, hnames⟩ := h.exists_names_of_source (eq_ok_of_toOption hq)
      exact ⟨names, Path.same_trans (Path.same_symm hsame) hnames⟩
    · exact h.rooted q text hq

theorem textOf?_of_scan {tree : FileTree} {extension : String} {root : Path}
    (h : scan tree extension root = .ok w) (p : Path) : w.roster.textOf? p = none := by
  have hnone : ∀ id, w.roster.text? id = none := fun id => by
    rw [FileRoster.text?, texts_of_scan h, List.lookup_nil]
  rw [FileRoster.textOf?]
  cases w.roster.idOf? p with
  | none => rfl
  | some id => exact hnone id

theorem keepsRead_of_scan {tree : FileTree} {extension : String} {root : Path}
    (h : scan tree extension root = .ok w) : w.KeepsRead := by
  constructor
  · intro id hid
    rw [FileRoster.text?, texts_of_scan h] at hid
    cases hid
  · intro p text hp
    rw [textOf?_of_scan h] at hp
    cases hp

end Workspace

/-! ## Sessions -/

/-- A workspace in use, in a world that changes. -/
structure Session (σ : Type) where
  world : σ
  workspace : Workspace

/-- What can happen in a session. -/
inductive SessionStep (σ : Type) where
  /-- The world changes: files are written, deleted, replaced. -/
  | change (world : σ)
  /-- The text of a file is asked for. -/
  | source (p : Path)
  /-- It is asked whether a path lies beneath the root. -/
  | contains (p : Path)
  /-- The path of a file is asked for. -/
  | path (id : FileId)
  /-- A module is compiled. -/
  | load (p : Path)
  /-- All known files are compiled. -/
  | loadAll

/-- A text was asked for: the canonical path of the file at that moment, and the answer. -/
structure Reading where
  path : Path
  answer : Except ReadError String

variable {σ : Type}

namespace SessionStep

/-- The session after one more step. -/
def applyTo (c : Compiler σ) (s : Session σ) : SessionStep σ → Session σ
  | change world => { s with world := world }
  | source p => { s with workspace := (s.workspace.source (c.tree s.world) p).2 }
  | contains _ => s
  | path _ => s
  -- compiling may change the world, but it does not see the workspace
  | load p => { s with world := (c.compile p none s.world).2 }
  | loadAll => { s with world := (s.workspace.loadAll c s.world).2 }

/-- The reading that a step is. -/
def reading? (c : Compiler σ) (s : Session σ) : SessionStep σ → Option Reading
  | source p =>
    some ⟨(c.tree s.world).canonical p, (s.workspace.source (c.tree s.world) p).1⟩
  | _ => none

/-- Only asking for a text changes the workspace. -/
theorem applyTo_cases (c : Compiler σ) (s : Session σ) (step : SessionStep σ) :
    step.reading? c s = none ∧ (step.applyTo c s).workspace = s.workspace ∨
      ∃ tree p, step.reading? c s = some ⟨tree.canonical p, (s.workspace.source tree p).1⟩ ∧
        (step.applyTo c s).workspace = (s.workspace.source tree p).2 := by
  cases step with
  | source p => exact .inr ⟨c.tree s.world, p, rfl, rfl⟩
  | change world => exact .inl ⟨rfl, rfl⟩
  | contains p => exact .inl ⟨rfl, rfl⟩
  | path id => exact .inl ⟨rfl, rfl⟩
  | load p => exact .inl ⟨rfl, rfl⟩
  | loadAll => exact .inl ⟨rfl, rfl⟩

end SessionStep

namespace Session

/-- The session after some steps. -/
def after (c : Compiler σ) (s : Session σ) (steps : List (SessionStep σ)) : Session σ :=
  steps.foldl (SessionStep.applyTo c) s

/-- The readings of a session, in their order. -/
def readings (c : Compiler σ) : Session σ → List (SessionStep σ) → List Reading
  | _, [] => []
  | s, step :: steps => (step.reading? c s).toList ++ readings c (step.applyTo c s) steps

variable {c : Compiler σ} {s : Session σ}

theorem after_concat (steps : List (SessionStep σ)) (step : SessionStep σ) :
    s.after c (steps ++ [step]) = step.applyTo c (s.after c steps) :=
  List.foldl_append

theorem readings_concat (steps : List (SessionStep σ)) (step : SessionStep σ) :
    readings c s (steps ++ [step]) =
      readings c s steps ++ (step.reading? c (s.after c steps)).toList := by
  induction steps generalizing s with
  | nil => simp [readings, after]
  | cons first steps ih =>
    rw [List.cons_append, readings, ih, readings, List.append_assoc]
    rfl

theorem keepsRead_after (h : s.workspace.KeepsRead) (steps : List (SessionStep σ)) :
    (s.after c steps).workspace.KeepsRead := by
  induction steps using List.reverseRecOn with
  | nil => exact h
  | append_singleton steps step ih =>
    rw [after_concat]
    obtain ⟨-, hworkspace⟩ | ⟨tree, p, -, hworkspace⟩ := step.applyTo_cases c (s.after c steps)
    · exact hworkspace ▸ ih
    · exact hworkspace ▸ ih.source tree p

/-- A session that starts with no texts keeps exactly those that were answered. -/
theorem textOf?_after_eq_some_iff (h : s.workspace.KeepsRead)
    (hfresh : ∀ p, s.workspace.roster.textOf? p = none) (steps : List (SessionStep σ)) (q : Path)
    (text : String) :
    (s.after c steps).workspace.roster.textOf? q = some text ↔
      ∃ r ∈ readings c s steps, r.path.same q = true ∧ r.answer = .ok text := by
  induction steps using List.reverseRecOn with
  | nil => simp [after, hfresh, readings]
  | append_singleton steps step ih =>
    rw [after_concat, readings_concat]
    obtain ⟨hreading, hworkspace⟩ | ⟨tree, p, hreading, hworkspace⟩ :=
      step.applyTo_cases c (s.after c steps)
    · rw [hworkspace, hreading, Option.toList_none, List.append_nil]
      exact ih
    · have hkeeps := keepsRead_after (c := c) h steps
      rw [hworkspace, hreading, Option.toList_some, hkeeps.textOf?_source]
      simp only [List.mem_append, List.mem_singleton, or_and_right, exists_or, exists_eq_left,
        ← ih]
      by_cases hsame : (tree.canonical p).same q = true
      · rw [if_pos hsame, and_iff_right hsame]
        constructor
        · exact fun hanswer => .inr (eq_ok_of_toOption hanswer)
        · rintro (hkept | hanswer)
          · rw [hkeeps.fst_source, FileRoster.textOf?_congr hsame, hkept]
            rfl
          · rw [hanswer]
            rfl
      · rw [if_neg hsame]
        exact (or_iff_left fun hnew => hsame hnew.1).symm

end Session

/-! ## Files are read once -/

/-- What was read in the past decides what a workspace answers from now on. -/
structure ReadsOnce (past : List Reading) (w : Workspace) : Prop where
  /-- In the past, a path that was answered by a text was always answered by it later. -/
  steady : past.Pairwise fun r later => ∀ text, r.answer = .ok text →
    later.path.same r.path = true → later.answer = .ok text
  /-- A text that was answered is the answer for every path that has the same canonical path,
  however the tree has changed. -/
  kept : ∀ r ∈ past, ∀ text, r.answer = .ok text → ∀ (tree : FileTree) p,
    (tree.canonical p).same r.path = true → (w.source tree p).1 = .ok text
  /-- The canonical path itself is such a path: it leads to no other place in any tree. -/
  again : ∀ r ∈ past, ∀ text, r.answer = .ok text → ∀ tree : FileTree,
    (tree.canonical r.path).same r.path = true ∧ (w.source tree r.path).1 = .ok text
  /-- A path for which no text was answered, even if it was asked for in vain, is read from its
  file as it is now. -/
  unread : ∀ (tree : FileTree) p,
    (∀ r ∈ past, r.path.same (tree.canonical p) = true → ∃ cause, r.answer = .error cause) →
    (w.source tree p).1 = tree.readText (tree.canonical p)
  /-- Asking for a text changes no answer for another canonical path. -/
  apart : ∀ (tree : FileTree) p (other : FileTree) q,
    (tree.canonical p).same (other.canonical q) = false →
    ((w.source tree p).2.source other q).1 = (w.source other q).1

namespace Session

variable {c : Compiler σ} {s : Session σ}

/-- An answer that is kept is given again. -/
theorem source_of_mem_readings (h : s.workspace.KeepsRead)
    (hfresh : ∀ p, s.workspace.roster.textOf? p = none) {steps : List (SessionStep σ)}
    {r : Reading} (hr : r ∈ readings c s steps) {text : String} (htext : r.answer = .ok text)
    {tree : FileTree} {p : Path} (hsame : (tree.canonical p).same r.path = true) :
    ((s.after c steps).workspace.source tree p).1 = .ok text := by
  have hkept := (textOf?_after_eq_some_iff h hfresh steps _ text).2
    ⟨r, hr, Path.same_symm hsame, htext⟩
  rw [(keepsRead_after h steps).fst_source, hkept]

/-- Later readings of a path repeat the text that was answered. -/
theorem pairwise_readings (h : s.workspace.KeepsRead)
    (hfresh : ∀ p, s.workspace.roster.textOf? p = none) (steps : List (SessionStep σ)) :
    (readings c s steps).Pairwise fun r later => ∀ text, r.answer = .ok text →
      later.path.same r.path = true → later.answer = .ok text := by
  induction steps using List.reverseRecOn with
  | nil => exact .nil
  | append_singleton steps step ih =>
    rw [readings_concat]
    obtain ⟨hreading, -⟩ | ⟨tree, p, hreading, -⟩ := step.applyTo_cases c (s.after c steps)
    · rw [hreading, Option.toList_none, List.append_nil]
      exact ih
    · rw [hreading, Option.toList_some, List.pairwise_append]
      refine ⟨ih, List.pairwise_singleton _ _, fun r hr later hlater text htext hsame => ?_⟩
      rw [List.mem_singleton.1 hlater] at hsame ⊢
      exact source_of_mem_readings h hfresh hr htext hsame

end Session

/-- A session with a freshly scanned workspace reads each file once, and what cannot be read is
tried again. -/
theorem session_readsOnce {tree : FileTree} {extension : String} {root : Path} {w : Workspace}
    (h : Workspace.scan tree extension root = .ok w) (c : Compiler σ) (world : σ)
    (steps : List (SessionStep σ)) :
    ReadsOnce (Session.readings c ⟨world, w⟩ steps)
      (Session.after c ⟨world, w⟩ steps).workspace := by
  have hfresh := Workspace.textOf?_of_scan h
  have hstart : (Session.mk world w).workspace.KeepsRead := Workspace.keepsRead_of_scan h
  have hkeeps := Session.keepsRead_after (c := c) hstart steps
  have hiff := Session.textOf?_after_eq_some_iff (c := c) hstart hfresh steps
  refine ⟨Session.pairwise_readings hstart hfresh steps, ?_, ?_, ?_, ?_⟩
  · intro r hr text htext tree p
    exact Session.source_of_mem_readings hstart hfresh hr htext
  · intro r hr text htext tree
    have hkept := (hiff r.path text).2 ⟨r, hr, r.path.same_refl, htext⟩
    obtain ⟨names, hnames⟩ := hkeeps.rooted r.path text hkept
    have hsame := FileTree.same_canonical hnames tree
    exact ⟨hsame, Session.source_of_mem_readings hstart hfresh hr htext hsame⟩
  · intro tree p hvain
    have hnone : (Session.after c ⟨world, w⟩ steps).workspace.roster.textOf? (tree.canonical p) =
        none := by
      rw [Option.eq_none_iff_forall_ne_some]
      intro text hkept
      obtain ⟨r, hr, hsame, htext⟩ := (hiff _ _).1 hkept
      obtain ⟨cause, hcause⟩ := hvain r hr hsame
      cases htext.symm.trans hcause
    rw [hkeeps.fst_source, hnone]
  · intro tree p other q hapart
    rw [(hkeeps.source tree p).fst_source, hkeeps.fst_source, hkeeps.textOf?_source, hapart,
      if_neg Bool.false_ne_true]

/-- A module file and a file that is none. -/
def notesTree : FileTree :=
  ((FileTree.bare ⟨"/w"⟩).write ⟨"/w/a.ol"⟩ (.text "type Shape")).write ⟨"/w/notes.txt"⟩
    (.text "Shape")

/-- The workspace of that tree. -/
def notesWorkspace : Workspace := ⟨⟨"/w"⟩, .insertAll .empty [⟨"/w/a.ol"⟩]⟩

/-- The tree once the module was deleted and another one was written. -/
def laterTree : FileTree :=
  (notesTree.delete ⟨"/w/a.ol"⟩).write ⟨"/w/b.ol"⟩ (.text "type Form")

/-- One module is read, by a roundabout spelling, and the other before it was written. -/
def earlyReads : List (SessionStep FileTree) :=
  [.source ⟨"/w/./a.ol"⟩, .source ⟨"/w/b.ol"⟩, .change laterTree]

/-- The text of the first module stays the answer, whatever happens to its file, and the second
module is read once it was written. -/
theorem session_readsOnce_early :
    Workspace.scan notesTree "ol" ⟨"/w"⟩ = .ok notesWorkspace ∧
      (∀ tree, ((Session.after Config.default.compiler ⟨notesTree, notesWorkspace⟩
        earlyReads).workspace.source tree ⟨"/w/a.ol"⟩).1 = .ok "type Shape") ∧
      ((Session.after Config.default.compiler ⟨notesTree, notesWorkspace⟩
        earlyReads).workspace.source laterTree ⟨"/w/b.ol"⟩).1 = .ok "type Form" := by
  have hscan : Workspace.scan notesTree "ol" ⟨"/w"⟩ = .ok notesWorkspace :=
    eq_ok_of_toOption (by decide +kernel)
  have honce := session_readsOnce hscan Config.default.compiler notesTree earlyReads
  refine ⟨hscan, fun tree => ?_, ?_⟩
  · have hread : ∃ r ∈ Session.readings Config.default.compiler ⟨notesTree, notesWorkspace⟩
        earlyReads, r.path = ⟨"/w/a.ol"⟩ ∧ r.answer.toOption = some "type Shape" := by
      decide +kernel
    obtain ⟨r, hr, hpath, hanswer⟩ := hread
    exact hpath ▸ (honce.again r hr "type Shape" (eq_ok_of_toOption hanswer) tree).2
  · have hvain : ∀ r ∈ Session.readings Config.default.compiler ⟨notesTree, notesWorkspace⟩
        earlyReads, r.path.same (laterTree.canonical ⟨"/w/b.ol"⟩) = true →
          r.answer.toOption = none := by
      decide +kernel
    rw [honce.unread]
    · exact eq_ok_of_toOption (by decide +kernel)
    · intro r hr hsame
      have hnone := hvain r hr hsame
      cases hanswer : r.answer with
      | error cause => exact ⟨cause, rfl⟩
      | ok text => rw [hanswer] at hnone; cases hnone

end SymbolAtlas
