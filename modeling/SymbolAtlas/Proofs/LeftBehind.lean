import SymbolAtlas.Proofs.Compilation
import SymbolAtlas.Proofs.RenamePreserves

/-!
# Modules that a rename leaves behind

A rename edits the known files of a workspace.  A module that is not among them, but
that imports a binding which is renamed, is left behind: it still has the old name,
which nothing binds any more.  The climb to the owner of a name notices such a module
when it comes by, but the spread from the owner does not, since it follows the imports
of indexed modules only.  So a plan can be complete and leave modules behind that the
workspace itself depends on.  After the edits, a known file still compiles exactly when
it depends on no module that is left behind.

## Main Definitions

* `RenamePlan.Renames`: a plan renames a binding.
* `LeftBehind`: a module is left behind by a plan.
* `Edited`: a module as it is linked after the edits.

## Main Statements

* `Planned.renames_iff`: what is renamed is the rename class.
* `Planned.exists_edited_of_reach`: dependencies stay dependencies after the edits.
* `Planned.not_edited`: what is left behind cannot be linked any more.
* `rename_compiles_iff`: which known files compile after a rename.
* `planRenameSymbol_leaves_behind`: a complete plan that leaves a module behind.
-/

namespace SymbolAtlas

/-- A plan renames a binding: the name is bound in the module, and each use of it there
is edited. -/
def RenamePlan.Renames (config : Config) (tree : FileTree) (plan : RenamePlan) (b : Binding) :
    Prop :=
  ∃ m, config.compileModule tree b.module none = .ok m ∧ b.name ∈ m.table.names ∧
    ∀ span ∈ m.table.usesOf b.name, span ∈ plan.spansAt b.module

/-- A module that is not known imports a binding that a plan renames, under an alias or
not. -/
def LeftBehind (config : Config) (tree : FileTree) (w : Workspace) (plan : RenamePlan)
    (d : Module) : Prop :=
  d.path ∉ w.modulePaths ∧ ∃ s ∈ d.table.imported, plan.Renames config tree s.sourceBinding

/-- A module as it is linked after the edits of a plan: at the same path, with the
edited text. -/
structure Edited (config : Config) (tree : FileTree) (plan : RenamePlan) (new : String)
    (m m' : Module) : Prop where
  linked : Linked config (plan.applyTo new tree) m'
  path : m'.path = m.path
  source : m'.source = replaceSpans (plan.spansAt m.path) new m.source

variable {config : Config} {tree : FileTree} {w : Workspace} {owner : Binding} {plan : RenamePlan}
  {root file : Path} {new : String}

/-! ## Plans without edits -/

theorem RenamePlan.spansAt_of_nil (hedits : plan.edits = []) (p : Path) : plan.spansAt p = [] := by
  rw [spansAt, hedits]
  rfl

theorem RenamePlan.applyTo_of_nil (hedits : plan.edits = []) (new : String) (tree : FileTree) :
    plan.applyTo new tree = tree := by
  have hsame : ∀ (names : List EntryName) (text : String),
      replaceSpans (plan.spansAt (.ofNames names)) new text = text := by
    intro names text
    rw [spansAt_of_nil hedits, replaceSpans_nil]
  rw [applyTo, FileTree.mapTexts, Entry.mapTextsEach_eq_self hsame]

/-! ## What is renamed -/

/-- What is renamed is bound, so some use of it is edited. -/
theorem RenamePlan.Renames.exists_span {b : Binding} {d : Module} (h : plan.Renames config tree b)
    (hb : Grounded config tree b d) :
    ∃ span ∈ d.table.usesOf b.name, span ∈ plan.spansAt b.module := by
  obtain ⟨m, hm, -, hall⟩ := h
  obtain rfl := Except.ok.inj (hm.symm.trans hb.compiled)
  obtain ⟨span, huse⟩ := hb.exists_use
  exact ⟨span, huse, hall span huse⟩

/-- What is renamed is the rename class. -/
theorem Planned.renames_iff (h : Planned config tree w owner plan)
    (hscan : Workspace.scan tree config.extension root = .ok w) {b : Binding} {d : Module}
    (hb : Grounded config tree b d) :
    plan.Renames config tree b ↔ RenameClass config tree w owner b := by
  -- in a known file, the uses of the name are edited when the name is in the class
  have hedited : b.module ∈ w.modulePaths → ∀ span ∈ d.table.usesOf b.name,
      (span ∈ plan.spansAt b.module ↔ RenameClass config tree w owner b) := by
    intro hknown span huse
    have hpath := hb.path
    obtain ⟨tokens, phrases, ds, hd⟩ := exists_knownAs hscan (hpath ▸ hknown)
      (compileModule_of_onDisk hb.linked hb.onDisk)
    obtain ⟨-, hi⟩ := (hd.links.mem_usesOf_iff (nodup_identifiers hd.lexed hd.phrased)).1 huse
    rw [← hpath]
    have hown := h.own_iff hscan hd hi
    rwa [hpath] at hown ⊢
  constructor
  · intro hrenames
    obtain ⟨span, huse, hspan⟩ := hrenames.exists_span hb
    by_cases hknown : b.module ∈ w.modulePaths
    · exact (hedited hknown span huse).1 hspan
    · rw [← hb.path] at hspan hknown
      rw [h.spansAt_eq_nil d hb.onDisk hknown] at hspan
      cases hspan
  · intro hclass
    have hknown := hclass.known h.known
    exact ⟨d, hb.compiled, hb.bound, fun span huse => (hedited hknown span huse).2 hclass⟩

/-- A module is left behind exactly when it is not spared. -/
theorem Planned.leftBehind_iff (h : Planned config tree w owner plan)
    (hscan : Workspace.scan tree config.extension root = .ok w) {d : Module}
    (hlinked : Linked config tree d) :
    LeftBehind config tree w plan d ↔ ¬ Spared config tree w owner d := by
  have hrenames : ∀ s ∈ d.table.imported, plan.Renames config tree s.sourceBinding ↔
      RenameClass config tree w owner s.sourceBinding := by
    intro s hs
    obtain ⟨e, -, he⟩ := hlinked.exists_dependency hs
    exact h.renames_iff hscan he
  constructor
  · rintro ⟨hunknown, s, hs, hs'⟩ hspared
    exact hspared hunknown s hs ((hrenames s hs).1 hs')
  · intro hspared
    simp only [Spared, not_forall, not_not] at hspared
    obtain ⟨hunknown, s, hs, hclass⟩ := hspared
    exact ⟨hunknown, s, hs, (hrenames s hs).2 hclass⟩

/-! ## Dependencies after the edits -/

/-- The outline of a module after the edits. -/
theorem Planned.parse_edited (h : Planned config tree w owner plan)
    (hscan : Workspace.scan tree config.extension root = .ok w) (hnew : IsIdentifier new.toList)
    {m : Module} (hlinked : Linked config tree m) (hdisk : OnDisk tree m) {outline : Outline}
    (hparse : Outline.parse m.source = .ok outline) :
    Outline.parse (replaceSpans (plan.spansAt m.path) new m.source) =
      .ok (outline.map (Identifier.replaced (plan.spansAt m.path) new)) := by
  by_cases hknown : m.path ∈ w.modulePaths
  · obtain ⟨tokens, phrases, ds, hm⟩ :=
      exists_knownAs hscan hknown (compileModule_of_onDisk hlinked hdisk)
    have houtline := parse_eq_ok_iff.2 ⟨tokens, phrases, hm.lexed, hm.phrased, rfl⟩
    obtain rfl := Except.ok.inj (hparse.symm.trans houtline)
    have hhits := hits_of_known h hscan hm
    exact (parse_replaceSpans hm.lexed hm.phrased hnew hhits.tokens hhits.segments).1
  · obtain ⟨tokens, phrases, htokens, hphrases, rfl⟩ := parse_eq_ok_iff.1 hparse
    rw [h.spansAt_eq_nil m hdisk hknown]
    exact (parse_replaceSpans htokens hphrases hnew (by simp) (by simp)).1

/-- An import statement of an edited module leads to the edited dependency, and the
names that it has now are bound there. -/
theorem Planned.exists_edited (h : Planned config tree w owner plan)
    (hscan : Workspace.scan tree config.extension root = .ok w) (hnew : IsIdentifier new.toList)
    {m m' d : Module} (hlinked : Linked config tree m) (hdisk : OnDisk tree m)
    (hm : Edited config tree plan new m m') {outline : Outline}
    (hparse : Outline.parse m.source = .ok outline) {s : ImportStatement}
    (hs : s ∈ outline.imports) (hd : Resolves config tree m.path s d) :
    ∃ d', Edited config tree plan new d d' ∧ ∀ item ∈ s.items,
      (item.name.replaced (plan.spansAt m.path) new).text ∈ d'.table.names := by
  have hparse' := h.parse_edited hscan hnew hlinked hdisk hparse
  rw [← hm.source] at hparse'
  cases hm.linked with
  | @intro _ ds' links' linked' =>
    have hs' := List.mem_map_of_mem (f := ImportStatement.map
      (Identifier.replaced (plan.spansAt m.path) new)) hs
    obtain ⟨d', hd', hresolves', hnames⟩ := links'.exists_resolves hparse' hs'
    have hresolves : Resolves config (plan.applyTo new tree) m.path
        (s.map (Identifier.replaced (plan.spansAt m.path) new))
        ((plan.relabelling config tree w owner new).module d) := hd.applyTo _
    rw [hm.path] at hresolves'
    obtain ⟨hpath, hsource⟩ := hresolves'.eq_path_source hresolves
    refine ⟨d', ⟨linked' d' hd', hpath, hsource⟩, fun item hitem => ?_⟩
    refine hnames (item.map _) ?_
    rw [ImportStatement.items_map]
    exact List.mem_map_of_mem hitem

/-- What a module depends on is linked after the edits, when the module is. -/
theorem Planned.exists_edited_of_reach (h : Planned config tree w owner plan)
    (hscan : Workspace.scan tree config.extension root = .ok w) (hnew : IsIdentifier new.toList)
    {m m' d : Module} (hlinked : Linked config tree m) (hdisk : OnDisk tree m)
    (hm : Edited config tree plan new m m')
    (hreach : Relation.ReflTransGen (DependsOn config tree) m d) :
    Linked config tree d ∧ OnDisk tree d ∧ ∃ d', Edited config tree plan new d d' := by
  induction hreach with
  | refl => exact ⟨hlinked, hdisk, m', hm⟩
  | @tail d e _ hdepends ih =>
    obtain ⟨hdLinked, hdDisk, d', hd'⟩ := ih
    refine ⟨hdepends.linked, hdepends.onDisk, ?_⟩
    obtain ⟨es, ⟨outline, hparse, hresolves, -⟩, -, he⟩ := hdepends
    obtain ⟨s, hs, hse⟩ := exists_left_of_forall₂ hresolves he
    obtain ⟨e', he', -⟩ := h.exists_edited hscan hnew hdLinked hdDisk hd' hparse hs hse
    exact ⟨e', he'⟩

/-! ## What is left behind breaks -/

/-- The old name of a renamed binding is not bound after the edits. -/
theorem Planned.not_bound (h : Planned config tree w owner plan)
    (hscan : Workspace.scan tree config.extension root = .ok w) (hnew : IsIdentifier new.toList)
    (hlacks : w.Lacks tree new) {b : Binding} {e e' : Module} (hb : Grounded config tree b e)
    (hclass : RenameClass config tree w owner b) (he : Edited config tree plan new e e') :
    b.name ∉ e'.table.names := by
  intro hbound
  have hknown := hclass.known h.known
  rw [← hb.path] at hknown
  obtain ⟨tokens, phrases, ds, hm⟩ :=
    exists_knownAs hscan hknown (compileModule_of_onDisk hb.linked hb.onDisk)
  have hparse := parse_eq_ok_iff.2 ⟨tokens, phrases, hm.lexed, hm.phrased, rfl⟩
  have hparse' := h.parse_edited hscan hnew hb.linked hb.onDisk hparse
  rw [← he.source] at hparse'
  -- some identifier of the edited text has the old name
  obtain ⟨i, hi, hname⟩ : ∃ i ∈ (outlineOf phrases).identifiers,
      (i.replaced (plan.spansAt e.path) new).text = b.name := by
    cases he.linked with
    | @intro _ ds' links' _ =>
      obtain ⟨outline', houtline', -, hlinks'⟩ := links'
      obtain ⟨tokens', phrases', -, -, rfl⟩ := parse_eq_ok_iff.1 houtline'
      obtain ⟨i', hi', hname⟩ := hlinks'.namesAmong b.name hbound
      rw [Except.ok.inj (houtline'.symm.trans hparse'), Outline.map] at hi'
      obtain ⟨i, hi, rfl⟩ := List.mem_map.1 hi'
      exact ⟨i, hi, hname⟩
  by_cases hspan : i.span ∈ plan.spansAt e.path
  · -- the new name is none that was there before
    obtain ⟨j, hj, hold⟩ := hm.links.namesAmong b.name hb.bound
    have hfresh := hlacks.text_ne hknown hb.onDisk.text hm.lexed hm.phrased hj
    rw [Identifier.replaced, if_pos hspan] at hname
    exact hfresh (hold.trans hname.symm)
  · -- and what has the old name is edited
    rw [Identifier.replaced, if_neg hspan] at hname
    refine hspan ((h.own_iff hscan hm hi).2 ?_)
    rwa [hname, hb.path]

/-- A module that is left behind cannot be linked after the edits. -/
theorem Planned.not_edited (h : Planned config tree w owner plan)
    (hscan : Workspace.scan tree config.extension root = .ok w) (hnew : IsIdentifier new.toList)
    (hlacks : w.Lacks tree new) {d d' : Module} (hlinked : Linked config tree d)
    (hdisk : OnDisk tree d) (hbehind : LeftBehind config tree w plan d) :
    ¬ Edited config tree plan new d d' := by
  intro hd'
  obtain ⟨hunknown, s, hs, hrenames⟩ := hbehind
  have hlinked' := hlinked
  cases hlinked' with
  | @intro _ es links linked =>
    obtain ⟨outline, hparse, hresolves, hlinks⟩ := links
    obtain ⟨pair, hpair, item, hitem, symbol, hsymbol, rfl⟩ := hlinks.exists_item hs
    have hstatement : Resolves config tree d.path pair.1 pair.2 := List.forall₂_zip hresolves hpair
    have hgrounded : Grounded config tree ⟨pair.2.path, item.name.text⟩ pair.2 :=
      ⟨linked _ (List.of_mem_zip hpair).2, hstatement.onDisk, rfl,
        SymbolTable.isSome_lookup_iff.1 (Option.isSome_of_eq_some hsymbol)⟩
    obtain ⟨e', he', hnames⟩ := h.exists_edited hscan hnew hlinked hdisk hd' hparse
      (List.of_mem_zip hpair).1 hstatement
    -- the item is not edited, so it still asks for the old name
    have hname := hnames item hitem
    rw [h.spansAt_eq_nil d hdisk hunknown, Identifier.replaced, if_neg (by simp)] at hname
    exact h.not_bound hscan hnew hlacks hgrounded ((h.renames_iff hscan hgrounded).1 hrenames) he'
      hname

/-! ## Which files compile after a rename -/

/-- A rename can be asked for in any spelling of a file. -/
theorem planRenameSymbol_canonical (config : Config) (tree : FileTree) (file : Path)
    (name : String) (root : Path) :
    (planRenameSymbol config.compiler config (tree.canonical file) name root tree).1 =
      (planRenameSymbol config.compiler config file name root tree).1 := by
  rw [planRenameSymbol_eq, planRenameSymbol_eq, config.compileModule_canonical]

/-- What compiles after the edits is an edited module. -/
theorem edited_of_compileModule {m m' : Module} (hdisk : OnDisk tree m)
    (h : config.compileModule (plan.applyTo new tree) m.path none = .ok m') :
    Edited config tree plan new m m' := by
  obtain ⟨hpath, hlinked, -, hdisk'⟩ := linked_of_compileModule h
  have hedited : OnDisk (plan.applyTo new tree)
      ((renameTo (fun _ => False) plan.spansAt new).module m) := hdisk.applyTo
  have hpath' : m'.path = m.path := hpath.trans hedited.canonical
  refine ⟨hlinked, hpath', ?_⟩
  have htext := (hdisk' rfl).text
  rw [hpath'] at htext
  exact Except.ok.inj (htext.symm.trans hedited.text)

theorem Planned.compiles_iff (h : Planned config tree w owner plan)
    (hscan : Workspace.scan tree config.extension root = .ok w) (hnew : IsIdentifier new.toList)
    (hlacks : w.Lacks tree new) {m : Module} (hlinked : Linked config tree m)
    (hdisk : OnDisk tree m) (hknown : m.path ∈ w.modulePaths) :
    (∃ m', config.compileModule (plan.applyTo new tree) m.path none = .ok m') ↔
      ∀ d, Relation.TransGen (DependsOn config tree) m d → ¬ LeftBehind config tree w plan d := by
  constructor
  · rintro ⟨m', hm'⟩ d hreach hbehind
    obtain ⟨hdLinked, hdDisk, d', hd'⟩ := h.exists_edited_of_reach hscan hnew hlinked hdisk
      (edited_of_compileModule hdisk hm') hreach.to_reflTransGen
    exact h.not_edited hscan hnew hlacks hdLinked hdDisk hbehind hd'
  · intro hnone
    have hspared : ∀ d, Relation.ReflTransGen (DependsOn config tree) m d →
        Spared config tree w owner d := by
      intro d hreach
      rcases Relation.reflTransGen_iff_eq_or_transGen.1 hreach with rfl | hreach
      · exact fun hunknown => absurd hknown hunknown
      · obtain ⟨_, -, hdepends⟩ := Relation.TransGen.tail'_iff.1 hreach
        by_contra hspared
        exact hnone d hreach ((h.leftBehind_iff hscan hdepends.linked).2 hspared)
    have hlinked' := h.linked_of_spared hscan hnew hlacks hlinked hdisk hspared
    have hcompiled := compileModule_of_onDisk hlinked' hdisk.applyTo
    exact ⟨_, hcompiled⟩

/-- After a completed rename with a new name, a known file still compiles exactly when it
depends on no module that is left behind. -/
theorem rename_compiles_iff {name : String}
    (hscan : Workspace.scan tree config.extension root = .ok w)
    (hfile : tree.canonical file ∈ w.modulePaths)
    (hplan : (planRenameSymbol config.compiler config file name root tree).1 =
      .ok (.completed plan))
    (hnew : IsIdentifier new.toList) (hlacks : w.Lacks tree new) {m : Module}
    (hknown : m.path ∈ w.modulePaths) (hm : config.compileModule tree m.path none = .ok m) :
    (∃ m', config.compileModule (plan.applyTo new tree) m.path none = .ok m') ↔
      ∀ d, Relation.TransGen (DependsOn config tree) m d → ¬ LeftBehind config tree w plan d := by
  obtain ⟨-, hlinked, hdisk⟩ := Workspace.compiled_of_mem_modulePaths hscan hknown hm
  by_cases hedits : plan.edits = []
  · -- nothing is edited, and nothing is renamed
    rw [RenamePlan.applyTo_of_nil hedits]
    refine iff_of_true ⟨m, hm⟩ ?_
    rintro d hreach ⟨-, s, hs, hrenames⟩
    obtain ⟨_, -, hdepends⟩ := Relation.TransGen.tail'_iff.1 hreach
    obtain ⟨e, -, he⟩ := hdepends.linked.exists_dependency hs
    obtain ⟨span, -, hspan⟩ := hrenames.exists_span he
    rw [RenamePlan.spansAt_of_nil hedits] at hspan
    cases hspan
  · rw [← planRenameSymbol_canonical] at hplan
    obtain ⟨-, index, owner, d, hindex, -, howner, -, hownerKnown, hends, heq⟩ :=
      exists_owner_of_completed hscan hfile hplan hedits
    have hplanned := planned_of_edits hscan hindex howner hownerKnown hends heq
    exact hplanned.compiles_iff hscan hnew hlacks hlinked hdisk hknown

/-! ## A module left behind -/

/-- A module beneath `/w/ws` declares a name, a module outside passes it on, and a second
one beneath takes it from there. -/
def relayTree : FileTree :=
  (((FileTree.bare ⟨"/w"⟩).write ⟨"/w/ws/a.ol"⟩ (.text "type Shape")).write ⟨"/w/inc/s.ol"⟩
    (.text "from ..ws.a import Shape")).write ⟨"/w/ws/b.ol"⟩ (.text "from s import Shape")

/-- The configuration that searches the folder of the module outside. -/
def relayConfig : Config := Config.default.addIncludePaths [⟨"/w/inc"⟩]

/-- The workspace beneath `/w/ws`. -/
def relayWorkspace : Workspace :=
  ⟨⟨"/w/ws"⟩, .insertAll .empty [⟨"/w/ws/a.ol"⟩, ⟨"/w/ws/b.ol"⟩]⟩

/-- The plan, which edits the declaration only. -/
def relayPlan : RenamePlan := ⟨[(⟨"/w/ws/a.ol"⟩, [⟨⟨0, 5, 10⟩, "Shape"⟩])]⟩

/-- The declaring module, compiled. -/
def relayOrigin : Module :=
  { path := ⟨"/w/ws/a.ol"⟩
    source := "type Shape"
    table :=
      { owner := ⟨"/w/ws/a.ol"⟩
        declared := [⟨"Shape", .type, ⟨0, 5, 10⟩⟩]
        imported := []
        uses := [("Shape", [⟨0, 5, 10⟩])] } }

/-- The module outside, compiled. -/
def relayMiddle : Module :=
  { path := ⟨"/w/inc/s.ol"⟩
    source := "from ..ws.a import Shape"
    table :=
      { owner := ⟨"/w/inc/s.ol"⟩
        declared := []
        imported := [⟨"Shape", ⟨0, 19, 24⟩, ⟨⟨"/w/ws/a.ol"⟩, "Shape", ⟨0, 19, 24⟩⟩,
          ⟨⟨"/w/ws/a.ol"⟩, "Shape", .type, ⟨0, 5, 10⟩⟩, false⟩]
        uses := [("Shape", [⟨0, 19, 24⟩])] } }

/-- The module that takes the name from outside, compiled. -/
def relayUser : Module :=
  { path := ⟨"/w/ws/b.ol"⟩
    source := "from s import Shape"
    table :=
      { owner := ⟨"/w/ws/b.ol"⟩
        declared := []
        imported := [⟨"Shape", ⟨0, 14, 19⟩, ⟨⟨"/w/inc/s.ol"⟩, "Shape", ⟨0, 14, 19⟩⟩,
          ⟨⟨"/w/ws/a.ol"⟩, "Shape", .type, ⟨0, 5, 10⟩⟩, false⟩]
        uses := [("Shape", [⟨0, 14, 19⟩])] } }

theorem scan_relayTree :
    Workspace.scan relayTree relayConfig.extension ⟨"/w/ws"⟩ = .ok relayWorkspace :=
  eq_ok_of_toOption (by decide +kernel)

theorem plan_relayTree :
    (planRenameSymbol relayConfig.compiler relayConfig ⟨"/w/ws/a.ol"⟩ "Shape" ⟨"/w/ws"⟩
      relayTree).1 = .ok (.completed relayPlan) :=
  eq_ok_of_toOption (by decide +kernel)

theorem compileModule_relayUser :
    relayConfig.compileModule relayTree relayUser.path none = .ok relayUser :=
  eq_ok_of_toOption (by decide +kernel)

/-- The module beneath depends on the one outside. -/
theorem dependsOn_relayMiddle : DependsOn relayConfig relayTree relayUser relayMiddle := by
  have hmiddle : relayConfig.compileModule relayTree ⟨"/w/inc/s.ol"⟩ none = .ok relayMiddle :=
    eq_ok_of_toOption (by decide +kernel)
  obtain ⟨-, hlinked, -⟩ := linked_of_compileModule compileModule_relayUser
  obtain ⟨d, hdepends, hd⟩ := hlinked.exists_dependency List.mem_cons_self
  rwa [Except.ok.inj (hd.compiled.symm.trans hmiddle)] at hdepends

/-- What the module outside imports is renamed. -/
theorem renames_relayMiddle :
    ∀ s ∈ relayMiddle.table.imported, relayPlan.Renames relayConfig relayTree s.sourceBinding := by
  have horigin : relayConfig.compileModule relayTree ⟨"/w/ws/a.ol"⟩ none = .ok relayOrigin :=
    eq_ok_of_toOption (by decide +kernel)
  refine List.forall_mem_singleton.2 ⟨relayOrigin, horigin, by decide, ?_⟩
  exact List.forall_mem_singleton.2 (by decide +kernel)

/-- The module outside is left behind, and with it breaks the one beneath. -/
theorem rename_compiles_iff_relay :
    (planRenameSymbol relayConfig.compiler relayConfig ⟨"/w/ws/a.ol"⟩ "Shape" ⟨"/w/ws"⟩
        relayTree).1 = .ok (.completed relayPlan) ∧
      ¬ ∃ m', relayConfig.compileModule (relayPlan.applyTo "Form" relayTree) ⟨"/w/ws/b.ol"⟩ none =
        .ok m' := by
  have hlacks : ∀ p ∈ relayWorkspace.modulePaths, ∀ text ∈ (relayTree.readText p).toOption,
      ∀ tokens ∈ (tokenize text).toOption, ∀ t ∈ tokens, t.kind = .identifier →
        t.lexeme ≠ "Form" := by
    decide +kernel
  refine ⟨plan_relayTree, fun hcompiles => ?_⟩
  refine (rename_compiles_iff scan_relayTree (by decide +kernel) plan_relayTree (by decide)
    (fun p hp text tokens htext htokens => ?_) (by decide +kernel)
    compileModule_relayUser).1 hcompiles relayMiddle (.single dependsOn_relayMiddle) ?_
  · exact hlacks p hp text (congrArg Except.toOption htext) tokens
      (congrArg Except.toOption htokens)
  · exact ⟨by decide +kernel, _, List.mem_cons_self, renames_relayMiddle _ List.mem_cons_self⟩

/-- A completed plan may rename a binding that a module outside of the root imports, on
which the workspace depends. -/
theorem planRenameSymbol_leaves_behind :
    ¬ ∀ (config : Config) (tree : FileTree) (file : Path) (name : String) (root : Path)
        (w : Workspace) (plan : RenamePlan),
      Workspace.scan tree config.extension root = .ok w →
      (planRenameSymbol config.compiler config file name root tree).1 = .ok (.completed plan) →
      (∀ m d, m.path ∈ w.modulePaths → config.compileModule tree m.path none = .ok m →
        Relation.TransGen (DependsOn config tree) m d →
        d.path.isBeneath (tree.canonical root) = false →
        ∀ s ∈ d.table.imported, ¬ plan.Renames config tree s.sourceBinding) ∧
      ∀ new : String, IsIdentifier new.toList → w.Lacks tree new → ∀ p ∈ w.modulePaths,
        (∃ m, config.compileModule tree p none = .ok m) →
        ∃ m', config.compileModule (plan.applyTo new tree) p none = .ok m' := by
  intro hspares
  have hnone := (hspares relayConfig relayTree ⟨"/w/ws/a.ol"⟩ "Shape" ⟨"/w/ws"⟩ relayWorkspace
    relayPlan scan_relayTree plan_relayTree).1 relayUser relayMiddle (by decide +kernel)
    compileModule_relayUser (.single dependsOn_relayMiddle) (by decide +kernel)
  exact hnone _ List.mem_cons_self (renames_relayMiddle _ List.mem_cons_self)

end SymbolAtlas
