import Mathlib.Data.List.Sort
import SymbolAtlas.Proofs.RenamePreserves
import SymbolAtlas.Proofs.SpreadExact

/-!
# A plan does not depend on where it is asked for

The names of a rename class are one name, so a rename can be asked for at any of
them.  From a binding of the class the climb leads back to its owner, which is where
the climb from the first request ended, and the origin of an imported name is the
same all along a climb.  The modules are indexed in another order then, but a spread
lists what it finds by module and place, so it does not show the order.

## Main Definitions

* `Locations.ListsKnown`: locations of known files, listed in order.

## Main Statements

* `Locations.ListsKnown.eq_of_mentions`: a listing is determined by its locations.
* `RenameClass.climbs`: climbs from a rename class lead to its owner.
* `OriginOf.climb_all`: a climb keeps the origin.
* `planRenameSymbol_eq_of_use`: a rename can be asked for at any use that it edits.
-/

namespace SymbolAtlas

/-! ## Listings are determined by what they mention -/

namespace Locations

/-- Locations in known files, listed in order and without empty modules. -/
structure ListsKnown (known : Path → Prop) (l : Locations) : Prop where
  inOrder : l.InOrder
  filled : ∀ entry ∈ l.entries, entry.2 ≠ []
  known : ∀ entry ∈ l.entries, known entry.1

variable {known : Path → Prop} {l l' : Locations}

/-- What one listing has, another has that mentions the same. -/
theorem ListsKnown.mem_of_mentions (h : l.ListsKnown known) (h' : l'.ListsKnown known)
    (hsame : ∀ p q, known p → known q → p.same q = true → p = q)
    (hmentions : ∀ p, known p → ∀ s, l.Mentions p s ↔ l'.Mentions p s)
    {entry : Path × List Span} (hentry : entry ∈ l.entries) : entry ∈ l'.entries := by
  have hknown := h.known entry hentry
  obtain ⟨s, hs⟩ := List.exists_mem_of_ne_nil _ (h.filled entry hentry)
  obtain ⟨other, hother, hpath, -⟩ :=
    (hmentions entry.1 hknown s).1 ⟨entry, hentry, Path.same_refl _, hs⟩
  have hspans : entry.2 = other.2 := by
    refine eq_of_pairwise_before (h.inOrder.2 entry hentry) (h'.inOrder.2 other hother) fun t => ?_
    rw [h.inOrder.mem_iff_mentions hentry (Path.same_refl _),
      h'.inOrder.mem_iff_mentions hother hpath]
    exact hmentions entry.1 hknown t
  have heq : other = entry :=
    Prod.ext (hsame _ _ (h'.known other hother) hknown hpath) hspans.symm
  rwa [heq] at hother

/-- Two listings that mention the same are equal. -/
theorem ListsKnown.eq_of_mentions (h : l.ListsKnown known) (h' : l'.ListsKnown known)
    (hsame : ∀ p q, known p → known q → p.same q = true → p = q)
    (hmentions : ∀ p, known p → ∀ s, l.Mentions p s ↔ l'.Mentions p s) : l = l' := by
  have : Std.Irrefl fun a b : Path × List Span => a.1.before b.1 = true :=
    ⟨fun a => by simp [Path.before_irrefl]⟩
  have : Std.Antisymm fun a b : Path × List Span => a.1.before b.1 = true :=
    ⟨fun a b hab hba => by simp [Path.before_asymm hab] at hba⟩
  have hentries : l.entries = l'.entries := by
    refine h.inOrder.1.eq_of_mem_iff h'.inOrder.1 fun entry => ⟨fun hentry => ?_, fun hentry => ?_⟩
    · exact h.mem_of_mentions h' hsame hmentions hentry
    · exact h'.mem_of_mentions h hsame (fun p hp s => (hmentions p hp s).symm) hentry
  cases l
  cases l'
  exact congrArg Locations.mk hentries

end Locations

variable {config : Config} {tree : FileTree} {w : Workspace} {root : Path} {owner : Binding}

/-- Two indexes of one workspace find the same. -/
theorem spread_eq_of_indexesWorkspace (hscan : Workspace.scan tree config.extension root = .ok w)
    {index index' : ImportIndex} (h : IndexesWorkspace config tree w index)
    (h' : IndexesWorkspace config tree w index') {d : Module}
    (howner : Grounded config tree owner d) : index.spread owner = index'.spread owner := by
  have hlists : ∀ {index}, IndexesWorkspace config tree w index →
      (index.spread owner).ListsKnown (· ∈ w.modulePaths) := fun hindex =>
    ⟨ImportIndex.inOrder_spread owner, fun _ hentry => ImportIndex.ne_nil_of_mem_spread hentry,
      fun _ hentry => fst_mem_modulePaths_of_mem_spread hscan hindex howner hentry⟩
  refine (hlists h).eq_of_mentions (hlists h')
    (fun p q => Workspace.eq_of_same_of_mem_modulePaths hscan) fun p hp s => ?_
  rw [mentions_spread_iff hscan h howner hp, mentions_spread_iff hscan h' howner hp]

/-! ## Climbing from a rename class -/

/-- From a binding of a rename class the climb leads to the owner. -/
theorem RenameClass.climbs {b : Binding} (h : RenameClass config tree w owner b) :
    Relation.ReflTransGen (ClimbsWithin config tree w) b owner := by
  induction h with
  | root => exact .refl
  | step _ known compiled imported unaliased source ih =>
    have hnodup := (linked_of_compileModule compiled).2.1.nodup_names
    have hlookup := SymbolTable.lookup_imported hnodup imported
    exact .head ⟨known, _, _, compiled, hlookup, unaliased, source.symm⟩ ih

/-- A climb keeps the origin. -/
theorem OriginOf.climb_all {b last : Binding} {origin : Origin}
    (h : OriginOf config tree b origin)
    (hclimb : Relation.ReflTransGen (ClimbsWithin config tree w) b last) :
    OriginOf config tree last origin :=
  h.takesFrom_all (takesFrom_of_climb hclimb)

/-- In a module beneath the root, a symbol is not foreign when its origin is beneath
the root too. -/
theorem foreignOrigin?_eq_none_iff {p : Path} (hp : p.isBeneath root = true) {symbol : Symbol} :
    symbol.foreignOrigin? root = none ↔ (symbol.originIn p).module.isBeneath root = true := by
  cases symbol with
  | declared s => simpa [Symbol.foreignOrigin?, Symbol.originIn] using hp
  | imported s => simp [Symbol.foreignOrigin?, Symbol.originIn]

/-- When the climbs from two known files meet, both names are bound within the root
or none is. -/
theorem BoundWithin.of_climbs (hscan : Workspace.scan tree config.extension root = .ok w)
    {file file' : Path} {name : String} {start start' : Module} {symbol symbol' : Symbol}
    (h : BoundWithin config tree w file name start symbol) (hfile : file ∈ w.modulePaths)
    (hclimb : Relation.ReflTransGen (ClimbsWithin config tree w) ⟨file, name⟩ owner)
    (hfile' : file' ∈ w.modulePaths) (hstart' : config.compileModule tree file' none = .ok start')
    (hsymbol' : start'.table.lookup name = some symbol')
    (hclimb' : Relation.ReflTransGen (ClimbsWithin config tree w) ⟨file', name⟩ owner) :
    BoundWithin config tree w file' name start' symbol' := by
  obtain ⟨rfl, -⟩ := Workspace.compiled_of_mem_modulePaths hscan hfile h.compiled
  obtain ⟨rfl, -⟩ := Workspace.compiled_of_mem_modulePaths hscan hfile' hstart'
  have horigin : OriginOf config tree ⟨start.path, name⟩ (symbol.originIn start.path) :=
    ⟨start, symbol, h.compiled, h.bound, rfl⟩
  have horigin' : OriginOf config tree ⟨start'.path, name⟩ (symbol'.originIn start'.path) :=
    ⟨start', symbol', hstart', hsymbol', rfl⟩
  have heq := (horigin'.climb_all hclimb').unique (horigin.climb_all hclimb)
  have hbeneath := Workspace.isBeneath_of_mem_modulePaths hscan hfile
  have hbeneath' := Workspace.isBeneath_of_mem_modulePaths hscan hfile'
  refine ⟨hstart', hsymbol', (foreignOrigin?_eq_none_iff hbeneath').2 ?_⟩
  rw [heq]
  exact (foreignOrigin?_eq_none_iff hbeneath).1 h.home

/-! ## The same plan from everywhere -/

/-- A rename can be asked for at any use of the name that it edits, with the same
plan. -/
theorem planRenameSymbol_eq_of_use (hscan : Workspace.scan tree config.extension root = .ok w)
    {file other : Path} (hfile : file ∈ w.modulePaths) (hother : other ∈ w.modulePaths)
    {name : String} {plan : RenamePlan}
    (hplan : (planRenameSymbol config.compiler config file name root tree).1 =
      .ok (.completed plan))
    {m : Module} (hm : config.compileModule tree other none = .ok m) {span : Span}
    (hspan : span ∈ plan.spansAt other) (huse : span ∈ m.table.usesOf name) :
    (planRenameSymbol config.compiler config other name root tree).1 = .ok (.completed plan) := by
  obtain ⟨rfl, hlinked, -⟩ := Workspace.compiled_of_mem_modulePaths hscan hother hm
  have hedits : plan.edits ≠ [] := by
    intro hnil
    simp [RenamePlan.spansAt, hnil] at hspan
  obtain ⟨hall, start, symbol, hbound⟩ := boundWithin_of_completed hscan hplan hedits
  obtain ⟨-, index, owner, d, hindex, hclimb, howner, -, hknown, hends, heq⟩ :=
    exists_owner_of_completed hscan hfile hplan hedits
  -- the use belongs to a binding of the rename class, from which the climb leads to the owner
  obtain ⟨tokens, phrases, ds, hknownAs⟩ := exists_knownAs hscan hother hm
  obtain ⟨hmem, hidentifier⟩ := (hknownAs.links.mem_usesOf_iff
    (nodup_identifiers hknownAs.lexed hknownAs.phrased)).1 huse
  have hclass : RenameClass config tree w owner ⟨m.path, name⟩ :=
    ((planned_of_edits hscan hindex howner hknown hends heq).own_iff hscan hknownAs
      hidentifier).1 hspan
  obtain ⟨symbol', hsymbol'⟩ :=
    Option.isSome_iff_exists.1 (SymbolTable.isSome_lookup_iff.2 hmem)
  have hbound' := hbound.of_climbs hscan hfile hclimb hother hm hsymbol' hclass.climbs
  obtain ⟨index', last, d', hindex', hclimb', -, ⟨-, hends', hplan'⟩ | ⟨hunknown, -⟩⟩ :=
    hbound'.plan_ends hscan hother hall
  · obtain rfl := climb_end_unique hclass.climbs hends hclimb' hends'
    rw [hplan', ← spread_eq_of_indexesWorkspace hscan hindex hindex' howner, ← heq]
  · obtain rfl :=
      climb_end_unique hclass.climbs hends hclimb' fun _ hnext => hunknown hnext.1
    exact absurd hknown hunknown

/-- A module that takes a name from where it is an alias. -/
def reexportTree : FileTree :=
  (((FileTree.bare ⟨"/w"⟩).write ⟨"/w/a.ol"⟩ (.text "type Shape")).write ⟨"/w/b.ol"⟩
    (.text "from .a import Shape as Form")).write ⟨"/w/c.ol"⟩
    (.text "from .b import Form\ntype T {Form f}")

/-- The workspace of the three modules. -/
def reexportWorkspace : Workspace :=
  ⟨⟨"/w"⟩, .insertAll .empty [⟨"/w/a.ol"⟩, ⟨"/w/b.ol"⟩, ⟨"/w/c.ol"⟩]⟩

/-- The module in the middle, compiled. -/
def reexportModule : Module :=
  { path := ⟨"/w/b.ol"⟩
    source := "from .a import Shape as Form"
    table :=
      { owner := ⟨"/w/b.ol"⟩
        declared := []
        imported := [⟨"Form", ⟨0, 24, 28⟩, ⟨⟨"/w/a.ol"⟩, "Shape", ⟨0, 15, 20⟩⟩,
          ⟨⟨"/w/a.ol"⟩, "Shape", .type, ⟨0, 5, 10⟩⟩, true⟩]
        uses := [("Form", [⟨0, 24, 28⟩])] } }

/-- The plan that renames the alias and its import. -/
def reexportPlan : RenamePlan :=
  ⟨[(⟨"/w/b.ol"⟩, [⟨⟨0, 24, 28⟩, "Form"⟩]),
    (⟨"/w/c.ol"⟩, [⟨⟨0, 15, 19⟩, "Form"⟩, ⟨⟨1, 8, 12⟩, "Form"⟩])]⟩

/-- The rename that is asked for at the import can be asked for at the alias. -/
theorem planRenameSymbol_eq_of_use_reexport :
    (planRenameSymbol Config.default.compiler .default ⟨"/w/c.ol"⟩ "Form" ⟨"/w"⟩ reexportTree).1 =
        .ok (.completed reexportPlan) ∧
      (planRenameSymbol Config.default.compiler .default ⟨"/w/b.ol"⟩ "Form" ⟨"/w"⟩
        reexportTree).1 = .ok (.completed reexportPlan) := by
  have hscan : Workspace.scan reexportTree Config.default.extension ⟨"/w"⟩ =
      .ok reexportWorkspace := eq_ok_of_toOption (by decide +kernel)
  have hplan : (planRenameSymbol Config.default.compiler .default ⟨"/w/c.ol"⟩ "Form" ⟨"/w"⟩
      reexportTree).1 = .ok (.completed reexportPlan) := eq_ok_of_toOption (by decide +kernel)
  have hcompile : Config.default.compileModule reexportTree ⟨"/w/b.ol"⟩ none =
      .ok reexportModule := eq_ok_of_toOption (by decide +kernel)
  have hspan : (⟨0, 24, 28⟩ : Span) ∈ reexportPlan.spansAt ⟨"/w/b.ol"⟩ := by decide +kernel
  exact ⟨hplan, planRenameSymbol_eq_of_use hscan (by decide +kernel) (by decide +kernel) hplan
    hcompile hspan (by decide)⟩

end SymbolAtlas
