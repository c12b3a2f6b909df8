import SymbolAtlas.Proofs.Files
import SymbolAtlas.Proofs.Spread
import SymbolAtlas.Request.Rename

/-!
# Edits in the order of their places

A plan keeps the edits of each module sorted and without repetition, whatever is added to it.
The locations of a spread are in order already: modules come in path order, and the spans of a
module by place.  Entered one after the other, they become edits as they are.

## Main Definitions

* `editsAt`, `RenamePlan.insertAll`: the edits for given locations.
* `RenamePlan.Sorted`: what every addition to a plan keeps.
* `RenamePlan.InOrder`: modules in path order, and their edits by place.

## Main Statements

* `linearlyOrders_renameEdit`: the order of edits tells any two edits apart.
* `RenamePlan.sorted_insertAll`: a plan is sorted, whatever is entered.
* `RenamePlan.edits_insertAll`: locations that are in order become edits as they are.
* `RenamePlan.insertAll_spread`, `inOrder_editsAt_spread`: the plan for the locations of a spread.
-/

namespace SymbolAtlas

/-! ## The order of edits -/

theorem RenameEdit.before_iff {a b : RenameEdit} :
    a.before b = true ↔
      a.span.before b.span = true ∨ a.span = b.span ∧ nameBefore a.symbol b.symbol = true := by
  simp [RenameEdit.before]

theorem linearlyOrders_renameEdit : LinearlyOrders RenameEdit.before where
  irrefl a := by
    simp [RenameEdit.before, linearlyOrders_span.irrefl, linearlyOrders_nameBefore.irrefl]
  trans := by
    intro a b c hab hbc
    rw [RenameEdit.before_iff] at hab hbc ⊢
    rcases hab with hab | ⟨hab, hname⟩
    · rcases hbc with hbc | ⟨hbc, -⟩
      · exact .inl (linearlyOrders_span.trans hab hbc)
      · exact .inl (hbc ▸ hab)
    · rcases hbc with hbc | ⟨hbc, hname'⟩
      · exact .inl (hab ▸ hbc)
      · exact .inr ⟨hab.trans hbc, linearlyOrders_nameBefore.trans hname hname'⟩
  eq_of_neither := by
    intro a b hab hba
    rw [← Bool.not_eq_true, RenameEdit.before_iff, not_or, not_and, Bool.not_eq_true,
      Bool.not_eq_true] at hab hba
    have hspan := linearlyOrders_span.eq_of_neither hab.1 hba.1
    have hsymbol := linearlyOrders_nameBefore.eq_of_neither (hab.2 hspan) (hba.2 hspan.symm)
    cases a
    cases b
    cases hspan
    cases hsymbol
    rfl

/-! ## Entering locations -/

/-- The edits of a module for given spans. -/
def editsAt (name : String) (entry : Path × List Span) : Path × List RenameEdit :=
  (entry.1, entry.2.map (⟨·, name⟩))

namespace RenamePlan

/-- Add edits at the locations of several modules, one after the other. -/
def insertAll (plan : RenamePlan) (name : String) (entries : List (Path × List Span)) :
    RenamePlan :=
  entries.foldl (fun plan entry => plan.insert entry.1 name entry.2) plan

/-- Modules are in path order, and the edits of each are sorted and without repetition. -/
structure Sorted (plan : RenamePlan) : Prop where
  modules : plan.edits.Pairwise fun a b => a.1.before b.1 = true
  edits : ∀ entry ∈ plan.edits, entry.2.Pairwise (RenameEdit.before · · = true)

/-- Whatever locations are added, a plan stays sorted. -/
theorem Sorted.insert {plan : RenamePlan} (h : plan.Sorted) (module : Path) (name : String)
    (spans : List Span) : (plan.insert module name spans).Sorted := by
  constructor
  · exact pairwise_alterEntry h.modules
  · have hsorted : ∀ edits : List RenameEdit,
        (sorted RenameEdit.before edits).Pairwise (RenameEdit.before · · = true) :=
      pairwise_sorted fun _ _ _ => linearlyOrders_renameEdit.trans
    exact forall_snd_alterEntry (fun _ _ => hsorted _) .nil h.edits

/-- Whatever locations are entered, in whatever order, the plan is sorted. -/
theorem sorted_insertAll {plan : RenamePlan} (h : plan.Sorted) (name : String)
    (entries : List (Path × List Span)) : (plan.insertAll name entries).Sorted := by
  induction entries generalizing plan with
  | nil => exact h
  | cons entry rest ih => exact ih (h.insert entry.1 name entry.2)

/-- Spans that are in order become the edits of a module behind all others as they are. -/
theorem edits_insert {plan : RenamePlan} {name : String} {entry : Path × List Span}
    (hbehind : ∀ old ∈ plan.edits, old.1.before entry.1 = true)
    (hspans : entry.2.Pairwise (Span.before · · = true)) :
    (plan.insert entry.1 name entry.2).edits = plan.edits ++ [editsAt name entry] := by
  have hedits : (entry.2.map (RenameEdit.mk · name)).Pairwise (RenameEdit.before · · = true) :=
    List.pairwise_map.2 (hspans.imp fun hbefore => RenameEdit.before_iff.2 (.inl hbefore))
  show alterEntry entry.1 _ plan.edits = _
  rw [alterEntry_of_behind hbehind, List.nil_append,
    sorted_of_pairwise (fun _ _ => linearlyOrders_renameEdit.asymm) hedits]
  rfl

/-- Behind the modules of a plan, locations that are in order become edits as they are. -/
theorem edits_insertAll_of_behind {plan : RenamePlan} {name : String}
    {entries : List (Path × List Span)}
    (hmodules : entries.Pairwise fun a b => a.1.before b.1 = true)
    (hspans : ∀ entry ∈ entries, entry.2.Pairwise (Span.before · · = true))
    (hbehind : ∀ old ∈ plan.edits, ∀ entry ∈ entries, old.1.before entry.1 = true) :
    (plan.insertAll name entries).edits = plan.edits ++ entries.map (editsAt name) := by
  induction entries generalizing plan with
  | nil => exact (List.append_nil plan.edits).symm
  | cons entry rest ih =>
    obtain ⟨hentry, hmodules⟩ := List.pairwise_cons.1 hmodules
    obtain ⟨hspan, hspans⟩ := List.forall_mem_cons.1 hspans
    have hedits : (plan.insert entry.1 name entry.2).edits = plan.edits ++ [editsAt name entry] :=
      edits_insert (fun old hold => hbehind old hold entry List.mem_cons_self) hspan
    have hnext : ∀ old ∈ (plan.insert entry.1 name entry.2).edits, ∀ other ∈ rest,
        old.1.before other.1 = true := by
      intro old hold other hother
      rcases List.mem_append.1 (hedits ▸ hold) with hold | hold
      · exact hbehind old hold other (List.mem_cons_of_mem entry hother)
      · rw [List.mem_singleton.1 hold]
        exact hentry other hother
    show ((plan.insert entry.1 name entry.2).insertAll name rest).edits = _
    rw [ih hmodules hspans hnext, hedits, List.append_assoc, List.singleton_append, List.map_cons]

/-- Locations that are in order become edits as they are: nothing is moved and nothing is left
out. -/
theorem edits_insertAll {l : Locations} (h : l.InOrder) (name : String) :
    (RenamePlan.empty.insertAll name l.entries).edits = l.entries.map (editsAt name) :=
  edits_insertAll_of_behind h.1 h.2 nofun

/-- The locations of a spread become edits as they are. -/
theorem insertAll_spread (index : ImportIndex) (owner : Binding) (name : String) :
    RenamePlan.empty.insertAll name (index.spread owner).entries =
      ⟨(index.spread owner).entries.map (editsAt name)⟩ := by
  have hedits := edits_insertAll (index.inOrder_spread owner) name
  exact congrArg RenamePlan.mk hedits

end RenamePlan

/-- Modules are listed in path order, each with at least one edit, and the edits
of a module are strictly increasing by place. -/
def RenamePlan.InOrder (plan : RenamePlan) : Prop :=
  plan.edits.Pairwise (fun a b => a.1.before b.1 = true) ∧
    ∀ entry ∈ plan.edits, entry.2 ≠ [] ∧
      entry.2.Pairwise fun a b => a.span.before b.span = true

/-- The plan for the locations of a spread is in order. -/
theorem inOrder_editsAt_spread (index : ImportIndex) (owner : Binding) (name : String) :
    (RenamePlan.mk ((index.spread owner).entries.map (editsAt name))).InOrder := by
  obtain ⟨hmodules, hspans⟩ := index.inOrder_spread owner
  refine ⟨List.pairwise_map.2 hmodules, fun entry hentry => ?_⟩
  obtain ⟨located, hlocated, rfl⟩ := List.mem_map.1 hentry
  refine ⟨?_, List.pairwise_map.2 (hspans located hlocated)⟩
  simpa [editsAt] using ImportIndex.ne_nil_of_mem_spread hlocated

end SymbolAtlas
