import SymbolAtlas.Proofs.RenameOrigins
import SymbolAtlas.Proofs.Words

/-!
# Renaming at a caret

The word under a caret is found by its characters and then looked up as a name of the
module.  A rename edits all uses of that name, but the caret need not be at one of them:
the same characters may stand in a comment, in the path of a package or in an import
that gives another name to something else.  The caret is at an edit exactly when the
word there is a use of the name, or the name that an aliased import takes from the
owner that is renamed.

## Main Definitions

* `RenamesCaret`: what a plan does in the module of the caret.

## Main Statements

* `planRename_renamesCaret`: what plans that are asked for at a caret do there.
* `planRename_misses_caret`: a plan with no edit at its caret.
-/

namespace SymbolAtlas

variable {config : Config} {tree : FileTree} {file root : Path}

/-- What a plan for the name of a word edits in the module of the caret. -/
structure RenamesCaret (index : ImportIndex) (start : Module) (caret : Position) (word : Word)
    (plan : RenamePlan) (owner : Binding) : Prop where
  /-- All uses of the name are edited. -/
  uses : ∀ span ∈ start.table.usesOf word.text, (start.path, span) ∈ plan.places
  /-- No edit touches the caret but that of the word there. -/
  eq_word : ∀ span, (start.path, span) ∈ plan.places → span.touches caret = true →
    span = word.span
  /-- An edit touches the caret exactly when the word there is a use of the name, or
  the name that an aliased import takes from a binding with the same owner. -/
  touched_iff : (∃ span, (start.path, span) ∈ plan.places ∧ span.touches caret = true) ↔
    word.span ∈ start.table.usesOf word.text ∨
      ∃ s ∈ start.table.imported, s.aliased = true ∧ word.span = s.source.span ∧
        index.rootBinding s.sourceBinding = .ok owner

namespace PlannedFor

variable {name : String} {plan : RenamePlan} {w : Workspace} {start : Module}
  {modules : List Module} {owner : Binding} {symbol : Symbol}
  (h : PlannedFor config tree file name root plan w start modules owner symbol)

include h

/-- What a plan edits in the module that it was asked for in. -/
theorem mem_places_start_iff {span : Span} :
    (start.path, span) ∈ plan.places ↔ span ∈ start.table.usesOf name ∨
      ∃ s ∈ start.table.imported, s.aliased = true ∧ span = s.source.span ∧
        (ImportIndex.ofModules (modules ++ [start])).rootBinding s.sourceBinding = .ok owner := by
  have hfound := ImportIndex.module?_ofModules_last modules start
  have hstart := (h.linked.consistent.module?_eq_some_iff.1 hfound).1
  obtain ⟨hclimb, hstop⟩ := (h.linked.rootBinding_eq_ok_iff h.grounded_start).1 h.climb
  rw [h.mem_places_iff hstart, and_iff_right hclimb]
  refine or_congr_right (exists_congr fun s => and_congr_right fun hs => ?_)
  obtain ⟨d, -, hsource⟩ := h.grounded_start.linked.exists_dependency hs
  rw [h.linked.rootBinding_eq_ok_iff hsource, and_iff_left hstop]

/-- What is edited in that module has the name. -/
theorem holds_of_mem_places {span : Span} (hplace : (start.path, span) ∈ plan.places) :
    holds start.source span name = true := by
  obtain ⟨_, _, hindexes⟩ := h.grounded_start.linked.exists_indexesReferences
  rcases h.mem_places_start_iff.1 hplace with huse | ⟨s, hs, -, rfl, hroot⟩
  · exact hindexes.holds_use name span huse
  · obtain ⟨d, -, hsource⟩ := h.grounded_start.linked.exists_dependency hs
    have hclimb := (h.linked.climb_all hsource (ImportIndex.climbsTo_of_climb hroot)).1
    have hname : s.source.name = name := hclimb.symm.trans h.owner_shares.1
    rw [← hname]
    exact hindexes.holds_source s hs

end PlannedFor

theorem PlannedFor.renamesCaret {plan : RenamePlan} {w : Workspace} {start : Module}
    {modules : List Module} {owner : Binding} {symbol : Symbol} {word : Word} {line column : Nat}
    (h : PlannedFor config tree file word.text root plan w start modules owner symbol)
    (hword : wordAt start.source line column = .ok word) :
    RenamesCaret (.ofModules (modules ++ [start])) start ⟨line, column⟩ word plan owner where
  uses span hspan := h.mem_places_start_iff.2 (.inl hspan)
  eq_word span hplace := eq_span_of_touches hword (h.holds_of_mem_places hplace)
  touched_iff := by
    rw [← h.mem_places_start_iff]
    constructor
    · rintro ⟨span, hplace, htouches⟩
      rwa [← eq_span_of_touches hword (h.holds_of_mem_places hplace) htouches]
    · intro hplace
      exact ⟨word.span, hplace, touches_of_wordAt hword⟩

/-- A plan with edits that is asked for at a caret edits all uses of the word there,
and has an edit at the caret exactly when the word there is one of them or is taken by
an aliased import from what is renamed. -/
theorem planRename_renamesCaret {line column : Nat} {plan : RenamePlan}
    (hplan : (planRename config.compiler config file line column root tree).1 =
      .ok (.completed plan))
    (hedits : plan.edits ≠ []) :
    ∃ word w start modules owner symbol, start.path = tree.canonical file ∧
      wordAt start.source line column = .ok word ∧
      PlannedFor config tree file word.text root plan w start modules owner symbol ∧
      RenamesCaret (.ofModules (modules ++ [start])) start ⟨line, column⟩ word plan owner := by
  obtain ⟨word, w, start, modules, owner, symbol, hword, -, h⟩ :=
    exists_plannedFor_of_planRename hplan hedits
  exact ⟨word, w, start, modules, owner, symbol, (linked_of_compileModule h.compiled).1, hword, h,
    h.renamesCaret hword⟩

/-- A declaration, with a remark on it. -/
def remarkTree : FileTree :=
  (FileTree.bare ⟨"/w"⟩).write ⟨"/w/a.ol"⟩ (.text "type Shape // Shape")

/-- The plan that edits the declaration. -/
def remarkPlan : RenamePlan := ⟨[(⟨"/w/a.ol"⟩, [⟨⟨0, 5, 10⟩, "Shape"⟩])]⟩

/-- At the declaration, the rename edits what the caret is at. -/
theorem planRename_renamesCaret_remark :
    (planRename Config.default.compiler .default ⟨"/w/a.ol"⟩ 0 7 ⟨"/w"⟩ remarkTree).1 =
        .ok (.completed remarkPlan) ∧
      ∃ word start index owner, wordAt start.source 0 7 = .ok word ∧
        RenamesCaret index start ⟨0, 7⟩ word remarkPlan owner := by
  have hplan : (planRename Config.default.compiler .default ⟨"/w/a.ol"⟩ 0 7 ⟨"/w"⟩
      remarkTree).1 = .ok (.completed remarkPlan) := eq_ok_of_toOption (by decide +kernel)
  obtain ⟨word, w, start, modules, owner, symbol, -, hword, -, hcaret⟩ :=
    planRename_renamesCaret hplan nofun
  exact ⟨hplan, word, start, _, owner, hword, hcaret⟩

/-- A plan with edits may have none at the caret that it was asked for at. -/
theorem planRename_misses_caret :
    ¬ ∀ (config : Config) (tree : FileTree) (file : Path) (line column : Nat) (root : Path)
        (plan : RenamePlan),
      (planRename config.compiler config file line column root tree).1 = .ok (.completed plan) →
      plan.edits ≠ [] → ∃ span, (tree.canonical file, span) ∈ plan.places ∧
        span.touches ⟨line, column⟩ = true := by
  intro htouched
  -- the caret is at the remark
  have hplan : (planRename Config.default.compiler .default ⟨"/w/a.ol"⟩ 0 15 ⟨"/w"⟩
      remarkTree).1 = .ok (.completed remarkPlan) := eq_ok_of_toOption (by decide +kernel)
  obtain ⟨span, hplace, htouches⟩ :=
    htouched .default remarkTree ⟨"/w/a.ol"⟩ 0 15 ⟨"/w"⟩ remarkPlan hplan nofun
  have hspan : span = ⟨0, 5, 10⟩ := by
    have hplaces : remarkPlan.places = [(⟨"/w/a.ol"⟩, ⟨0, 5, 10⟩)] := rfl
    rw [hplaces, List.mem_singleton] at hplace
    exact congrArg Prod.snd hplace
  rw [hspan] at htouches
  revert htouches
  decide

end SymbolAtlas
