import SymbolAtlas.Proofs.ChangedTexts
import SymbolAtlas.Proofs.ReferenceIndex
import SymbolAtlas.Proofs.RenameVerdict
import SymbolAtlas.Proofs.RenamedModules

/-!
# Renames keep the meaning of a workspace

When all edits of a plan are made with a name that is new, every known file still
compiles, and its table is the old one with the new name for the bindings of the
rename class: where they are bound, where they are imported from, and where they
are the origin of an import.  All else stays but for the places in changed lines.

The modules outside of the workspace are not edited.  They may stand between the
workspace and its origins only one way, so it is asked that none of those which
the workspace needs imports from it again.

## Main Definitions

* `RenamePlan.applyTo`: the tree after all edits of a plan.
* `Workspace.NoReentry`, `Workspace.Lacks`: what is asked of the workspace and of
  the new name.
* `KeepsMeaning`: what the renamed workspace compiles to.

## Main Statements

* `Workspace.Closed.noReentry`: a workspace that imports only from itself is fine.
* `hits_of_known`, `hits_of_unknown`: a plan edits in each module just what refers
  to the rename class.
* `Planned.linked_of_spared`, `Planned.linked`: linked modules are linked after the
  rename.
* `rename_preserves`: a completed rename keeps the meaning.
-/

namespace SymbolAtlas

/-- The places that a plan edits in a module. -/
def RenamePlan.spansAt (plan : RenamePlan) (p : Path) : List Span :=
  (plan.edits.filter (·.1.same p)).flatMap fun entry => entry.2.map (·.span)

/-- The tree after all edits of a plan were made, with a new name. -/
def RenamePlan.applyTo (plan : RenamePlan) (new : String) (tree : FileTree) : FileTree :=
  tree.mapTexts fun names => replaceSpans (plan.spansAt (.ofNames names)) new

/-- A module that is not known, but that known modules depend on, imports nothing
from known modules. -/
def Workspace.NoReentry (config : Config) (tree : FileTree) (w : Workspace) : Prop :=
  ∀ m d e, m.path ∈ w.modulePaths → config.compileModule tree m.path none = .ok m →
    Relation.TransGen (DependsOn config tree) m d → d.path ∉ w.modulePaths →
    DependsOn config tree d e → e.path ∉ w.modulePaths

/-- The imports of known files lead to known files. -/
def Workspace.Closed (config : Config) (tree : FileTree) (w : Workspace) : Prop :=
  ∀ p ∈ w.modulePaths, ∀ text outline, tree.readText p = .ok text →
    Outline.parse text = .ok outline → ∀ s ∈ outline.imports, ∀ target,
    resolvePackage? tree p.parent s.package config.searchFolders config.extension = some target →
      tree.canonical target ∈ w.modulePaths

/-- No identifier of a known file spells a name. -/
def Workspace.Lacks (tree : FileTree) (w : Workspace) (name : String) : Prop :=
  ∀ p ∈ w.modulePaths, ∀ text tokens, tree.readText p = .ok text → tokenize text = .ok tokens →
    ∀ t ∈ tokens, t.kind = .identifier → t.lexeme ≠ name

variable {config : Config} {tree : FileTree} {w : Workspace} {owner : Binding} {plan : RenamePlan}

/-- No identifier of a known file has a text that the workspace lacks. -/
theorem Workspace.Lacks.text_ne {new : String} (h : w.Lacks tree new) {p : Path}
    (hp : p ∈ w.modulePaths) {text : String} (htext : tree.readText p = .ok text)
    {tokens : List Token} (htokens : tokenize text = .ok tokens) {phrases : List Phrase}
    (hphrases : Phrased 0 tokens phrases) {i : Identifier}
    (hi : i ∈ (outlineOf phrases).identifiers) : i.text ≠ new := by
  obtain ⟨t, rfl, ht⟩ := exists_reference hi
  refine h p hp text tokens htext htokens t ?_ (hphrases.kind_of_role ht (.inl rfl))
  rw [← hphrases.tokens_eq]
  exact List.mem_map_of_mem ht

/-! ## Workspaces that import from themselves -/

theorem Workspace.Closed.dependsOn (h : w.Closed config tree) {m d : Module}
    (hknown : m.path ∈ w.modulePaths) (hdisk : OnDisk tree m)
    (hdepends : DependsOn config tree m d) : d.path ∈ w.modulePaths := by
  obtain ⟨ds, ⟨outline, hparse, hresolves, -⟩, -, hd⟩ := hdepends
  obtain ⟨s, hs, ⟨target, htarget, hpath⟩, -⟩ := exists_left_of_forall₂ hresolves hd
  rw [hpath]
  exact h m.path hknown _ _ hdisk.text hparse s hs target htarget

/-- A workspace that imports only from itself needs no module that is not known. -/
theorem Workspace.Closed.noReentry {root : Path} (h : w.Closed config tree)
    (hscan : Workspace.scan tree config.extension root = .ok w) : w.NoReentry config tree := by
  intro m d e hm hcompile hreach hunknown
  obtain ⟨-, -, hdisk⟩ := Workspace.compiled_of_mem_modulePaths hscan hm hcompile
  have hknown : d.path ∈ w.modulePaths ∧ OnDisk tree d := by
    clear hunknown
    induction hreach with
    | single hdepends => exact ⟨h.dependsOn hm hdisk hdepends, hdepends.onDisk⟩
    | tail _ hdepends ih => exact ⟨h.dependsOn ih.1 ih.2 hdepends, hdepends.onDisk⟩
  exact absurd hknown.1 hunknown

/-! ## What a plan edits -/

/-- A plan edits the places of the rename class of a binding in a known file, which
is where climbs to it end. -/
structure Planned (config : Config) (tree : FileTree) (w : Workspace) (owner : Binding)
    (plan : RenamePlan) : Prop where
  known : owner.module ∈ w.modulePaths
  grounded : ∃ d, Grounded config tree owner d
  ends : ∀ next, ¬ ClimbsWithin config tree w owner next
  mem_spansAt : ∀ p ∈ w.modulePaths, ∀ span, span ∈ plan.spansAt p ↔
    ∃ b, RenameClass config tree w owner b ∧ LocatedAt config tree w b p span
  spansAt_eq_nil : ∀ m, OnDisk tree m → m.path ∉ w.modulePaths → plan.spansAt m.path = []

theorem RenameClass.known {b : Binding} (hknown : owner.module ∈ w.modulePaths)
    (h : RenameClass config tree w owner b) : b.module ∈ w.modulePaths := by
  cases h with
  | root => exact hknown
  | step _ known => exact known

theorem mem_spansAt {index : ImportIndex} {name : String}
    (hplan : plan.edits = (index.spread owner).entries.map (editsAt name)) {p : Path}
    {span : Span} :
    span ∈ plan.spansAt p ↔ (index.spread owner).Mentions p span := by
  simp only [RenamePlan.spansAt, hplan, Locations.Mentions, List.mem_flatMap, List.mem_filter,
    List.mem_map, editsAt]
  constructor
  · rintro ⟨_, ⟨⟨entry, hentry, rfl⟩, hsame⟩, edit, hedit, rfl⟩
    obtain ⟨place, hplace, rfl⟩ := List.mem_map.1 hedit
    exact ⟨entry, hentry, hsame, hplace⟩
  · rintro ⟨entry, hentry, hsame, hspan⟩
    exact ⟨_, ⟨⟨entry, hentry, rfl⟩, hsame⟩, ⟨span, name⟩, List.mem_map_of_mem hspan, rfl⟩

theorem planned_of_edits {root : Path} (hscan : Workspace.scan tree config.extension root = .ok w)
    {index : ImportIndex} (hindex : IndexesWorkspace config tree w index) {d : Module}
    (howner : Grounded config tree owner d) (hknown : owner.module ∈ w.modulePaths)
    (hends : ∀ next, ¬ ClimbsWithin config tree w owner next)
    (hplan : plan.edits = (index.spread owner).entries.map (editsAt owner.name)) :
    Planned config tree w owner plan where
  known := hknown
  grounded := ⟨d, howner⟩
  ends := hends
  mem_spansAt p hp span := (mem_spansAt hplan).trans (mentions_spread_iff hscan hindex howner hp)
  spansAt_eq_nil m hdisk hunknown := by
    refine List.eq_nil_iff_forall_not_mem.2 fun span hspan => ?_
    obtain ⟨entry, hentry, hsame, -⟩ := (mem_spansAt hplan).1 hspan
    have hentryKnown := fst_mem_modulePaths_of_mem_spread hscan hindex howner hentry
    obtain ⟨names, hnames, -⟩ := hdisk.exists_names
    obtain ⟨folder, below, contents, -, hpath, -⟩ :=
      (Workspace.mem_modulePaths_of_scan hscan).1 hentryKnown
    rw [hpath, hnames, Path.same_ofNames] at hsame
    rw [hpath, hsame, ← hnames] at hentryKnown
    exact hunknown hentryKnown

/-- In a module that is not known, and that imports nothing from the rename class,
there is nothing to edit. -/
theorem hits_of_unknown (h : Planned config tree w owner plan) {m : Module} (hdisk : OnDisk tree m)
    (hunknown : m.path ∉ w.modulePaths) {tokens : List Token} {phrases : List Phrase}
    {dependencies : List Module}
    (hspared : ∀ taken ∈ takenItems ((outlineOf phrases).imports.zip dependencies),
      ¬ RenameClass config tree w owner ⟨taken.1.path, taken.2.name.text⟩) :
    Hits (RenameClass config tree w owner) (plan.spansAt m.path) m.path tokens phrases
      dependencies := by
  rw [h.spansAt_eq_nil m hdisk hunknown]
  refine ⟨nofun, fun _ _ => nofun, fun i _ => ?_, fun taken htaken => ?_⟩
  · exact iff_of_false nofun fun hclass => hunknown (hclass.known h.known)
  · exact iff_of_false nofun (hspared taken htaken)

/-- A known file that compiles, as it is written and linked. -/
structure KnownAs (config : Config) (tree : FileTree) (w : Workspace) (m : Module)
    (tokens : List Token) (phrases : List Phrase) (dependencies : List Module) : Prop where
  known : m.path ∈ w.modulePaths
  compiled : config.compileModule tree m.path none = .ok m
  lexed : tokenize m.source = .ok tokens
  phrased : Phrased 0 tokens phrases
  length : (outlineOf phrases).imports.length = dependencies.length
  links : Links m.path (outlineOf phrases) dependencies m.table

theorem exists_knownAs (hscan : Workspace.scan tree config.extension root = .ok w) {m : Module}
    (hknown : m.path ∈ w.modulePaths) (hcompile : config.compileModule tree m.path none = .ok m) :
    ∃ tokens phrases ds, KnownAs config tree w m tokens phrases ds := by
  obtain ⟨-, hlinked, -⟩ := Workspace.compiled_of_mem_modulePaths hscan hknown hcompile
  cases hlinked with
  | @intro _ ds links _ =>
    obtain ⟨outline, hparse, hresolves, hlinks⟩ := links
    obtain ⟨tokens, phrases, htokens, hphrases, rfl⟩ := parse_eq_ok_iff.1 hparse
    exact ⟨tokens, phrases, ds, hknown, hcompile, htokens, hphrases, hresolves.length_eq, hlinks⟩

section Known

variable {root : Path} {m : Module} {tokens : List Token} {phrases : List Phrase}
  {dependencies : List Module}

/-- What a plan edits in a known file: the uses of its own names in the class, and
the aliased names that it imports from the class. -/
theorem Planned.mem_spansAt_iff (h : Planned config tree w owner plan)
    (hscan : Workspace.scan tree config.extension root = .ok w)
    (hm : KnownAs config tree w m tokens phrases dependencies) {span : Span} :
    span ∈ plan.spansAt m.path ↔
      (∃ i ∈ (outlineOf phrases).identifiers, i.span = span ∧
        RenameClass config tree w owner ⟨m.path, i.text⟩) ∨
      ∃ taken ∈ takenItems ((outlineOf phrases).imports.zip dependencies),
        taken.2.alias?.isSome = true ∧ taken.2.name.span = span ∧
        RenameClass config tree w owner ⟨taken.1.path, taken.2.name.text⟩ := by
  obtain ⟨d, howner⟩ := h.grounded
  have hnodup := nodup_identifiers hm.lexed hm.phrased
  rw [h.mem_spansAt _ hm.known]
  constructor
  · rintro ⟨b, hclass, hlocated⟩
    cases hlocated with
    | home _ compiled module use =>
      obtain rfl := Except.ok.inj (hm.compiled.symm.trans compiled)
      obtain ⟨-, hi⟩ := (hm.links.mem_usesOf_iff hnodup).1 use
      rw [← module]
      exact .inl ⟨_, hi, rfl, hclass⟩
    | aliased _ compiled imported aliased source place =>
      obtain rfl := Except.ok.inj (hm.compiled.symm.trans compiled)
      obtain ⟨taken, htaken, symbol, -, rfl⟩ := exists_left_of_forall₂ hm.links.imported imported
      subst source
      exact .inr ⟨taken, htaken, aliased, place.symm, hclass⟩
  · rintro (⟨i, hi, rfl, hclass⟩ | ⟨taken, htaken, halias, rfl, hclass⟩)
    · obtain ⟨-, e, he⟩ := hclass.grounded hscan howner
      obtain rfl := Except.ok.inj (he.compiled.symm.trans hm.compiled)
      have huse := (hm.links.mem_usesOf_iff hnodup).2 ⟨he.bound, hi⟩
      exact ⟨_, hclass, .home hm.known hm.compiled rfl huse⟩
    · obtain ⟨s, hs, symbol, -, rfl⟩ := exists_left_of_forall₂ hm.links.imported.flip htaken
      exact ⟨_, hclass, .aliased hm.known hm.compiled hs halias rfl rfl⟩

/-- An imported name stands at a token, whose role says whether it is aliased. -/
theorem exists_role_of_taken {taken : Module × ImportItem}
    (h : taken ∈ takenItems ((outlineOf phrases).imports.zip dependencies)) :
    ∃ t : Token, t.identifier = taken.2.name ∧
      (t, if taken.2.alias?.isSome then Role.aliasedName else .reference) ∈ rolesOf phrases := by
  obtain ⟨pair, hpair, -, hitem⟩ := mem_of_mem_takenItems h
  exact exists_role_of_item (List.of_mem_zip hpair).1 hitem

/-- What is edited is a reference or an aliased name. -/
theorem Planned.exists_role (h : Planned config tree w owner plan)
    (hscan : Workspace.scan tree config.extension root = .ok w)
    (hm : KnownAs config tree w m tokens phrases dependencies) {span : Span}
    (hspan : span ∈ plan.spansAt m.path) :
    ∃ r ∈ rolesOf phrases, r.1.identifier.span = span ∧
      (r.2 = .reference ∨ r.2 = .aliasedName) := by
  rcases (h.mem_spansAt_iff hscan hm).1 hspan with ⟨i, hi, rfl, -⟩ | ⟨taken, htaken, halias, rfl, -⟩
  · obtain ⟨t, rfl, ht⟩ := exists_reference hi
    exact ⟨_, ht, rfl, .inl rfl⟩
  · obtain ⟨t, ht, hrole⟩ := exists_role_of_taken htaken
    rw [if_pos halias] at hrole
    exact ⟨_, hrole, congrArg Identifier.span ht, .inr rfl⟩

/-- A reference is edited exactly when its name is in the class. -/
theorem Planned.own_iff (h : Planned config tree w owner plan)
    (hscan : Workspace.scan tree config.extension root = .ok w)
    (hm : KnownAs config tree w m tokens phrases dependencies) {i : Identifier}
    (hi : i ∈ (outlineOf phrases).identifiers) :
    i.span ∈ plan.spansAt m.path ↔ RenameClass config tree w owner ⟨m.path, i.text⟩ := by
  rw [h.mem_spansAt_iff hscan hm]
  refine ⟨?_, fun hclass => .inl ⟨i, hi, rfl, hclass⟩⟩
  rintro (⟨i', hi', heq, hclass⟩ | ⟨taken, htaken, halias, heq, -⟩)
  · rwa [List.inj_on_of_nodup_map (nodup_identifiers hm.lexed hm.phrased) hi' hi heq] at hclass
  · -- an aliased name is no reference
    obtain ⟨t, rfl, ht⟩ := exists_reference hi
    obtain ⟨t', ht', hrole⟩ := exists_role_of_taken htaken
    rw [if_pos halias] at hrole
    rw [← ht'] at heq
    cases eq_of_roleSpan hm.lexed hm.phrased hrole ht heq

/-- An unaliased import is in the class exactly when what it imports is. -/
theorem Planned.renameClass_iff (h : Planned config tree w owner plan)
    (hm : KnownAs config tree w m tokens phrases dependencies) {s : ImportedSymbol}
    (hs : s ∈ m.table.imported) (hunaliased : s.aliased = false) :
    RenameClass config tree w owner ⟨m.path, s.name⟩ ↔
      RenameClass config tree w owner s.sourceBinding := by
  have hnodup := hm.links.nodup
  constructor
  · intro hclass
    generalize hb : (⟨m.path, s.name⟩ : Binding) = b at hclass
    cases hclass with
    | root =>
      -- the climb would go on
      have hlookup := SymbolTable.lookup_imported hnodup hs
      subst hb
      exact absurd ⟨hm.known, m, s, hm.compiled, hlookup, hunaliased, rfl⟩ (h.ends _)
    | step member known compiled imported _ source =>
      obtain ⟨rfl, hname⟩ := Binding.mk.inj hb
      obtain rfl := Except.ok.inj (hm.compiled.symm.trans compiled)
      obtain rfl :=
        List.inj_on_of_nodup_map (List.nodup_append.1 hnodup).2.1 hs imported hname
      rwa [source]
  · exact fun hclass => .step hclass hm.known hm.compiled hs hunaliased rfl

/-- An imported name is edited exactly when it is in the class where it is from. -/
theorem Planned.taken_iff (h : Planned config tree w owner plan)
    (hscan : Workspace.scan tree config.extension root = .ok w)
    (hm : KnownAs config tree w m tokens phrases dependencies) {taken : Module × ImportItem}
    (htaken : taken ∈ takenItems ((outlineOf phrases).imports.zip dependencies)) :
    taken.2.name.span ∈ plan.spansAt m.path ↔
      RenameClass config tree w owner ⟨taken.1.path, taken.2.name.text⟩ := by
  cases halias : taken.2.alias? with
  | none =>
    -- the name is bound as it is imported
    obtain ⟨pair, hpair, -, hitem⟩ := mem_of_mem_takenItems htaken
    obtain ⟨s, hs, symbol, -, rfl⟩ := exists_left_of_forall₂ hm.links.imported.flip htaken
    have hbinding : taken.2.binding = taken.2.name := by
      rw [ImportItem.binding, halias]
      rfl
    have hi := binding_mem_identifiers (List.of_mem_zip hpair).1 hitem
    rw [hbinding] at hi
    have hclass := h.renameClass_iff hm hs (by simp [ImportItem.importedAs, halias])
    simp only [ImportItem.importedAs, ImportedSymbol.sourceBinding, hbinding] at hclass
    exact (h.own_iff hscan hm hi).trans hclass
  | some other =>
    have hsome : taken.2.alias?.isSome = true := by
      rw [halias]
      rfl
    rw [h.mem_spansAt_iff hscan hm]
    refine ⟨?_, fun hclass => .inr ⟨taken, htaken, hsome, rfl, hclass⟩⟩
    rintro (⟨i, hi, heq, -⟩ | ⟨taken', htaken', -, heq, hclass⟩)
    · obtain ⟨t, ht, hrole⟩ := exists_role_of_taken htaken
      rw [if_pos hsome] at hrole
      obtain ⟨t', rfl, ht'⟩ := exists_reference hi
      rw [← ht] at heq
      cases eq_of_roleSpan hm.lexed hm.phrased ht' hrole heq
    · rwa [eq_of_takenSpan hm.lexed hm.phrased hm.length htaken' htaken heq] at hclass

/-- In a known file a plan edits just what refers to the rename class. -/
theorem hits_of_known (h : Planned config tree w owner plan)
    (hscan : Workspace.scan tree config.extension root = .ok w)
    (hm : KnownAs config tree w m tokens phrases dependencies) :
    Hits (RenameClass config tree w owner) (plan.spansAt m.path) m.path tokens phrases
      dependencies where
  tokens span hspan := by
    obtain ⟨r, hr, rfl, hrole⟩ := h.exists_role hscan hm hspan
    refine ⟨r.1, ?_, hm.phrased.kind_of_role hr hrole, rfl⟩
    rw [← hm.phrased.tokens_eq]
    exact List.mem_map_of_mem hr
  segments t ht hspan := by
    obtain ⟨r, hr, heq, hrole⟩ := h.exists_role hscan hm hspan
    obtain rfl := eq_of_roleSpan hm.lexed hm.phrased hr ht heq
    rcases hrole with hrole | hrole <;> cases hrole
  own i hi := h.own_iff hscan hm hi
  taken taken htaken := h.taken_iff hscan hm htaken

end Known

/-! ## Linking after a rename -/

section Applied

variable {new : String} {chosen : Binding → Prop}

theorem OnDisk.applyTo {m : Module} (h : OnDisk tree m) :
    OnDisk (plan.applyTo new tree) ((renameTo chosen plan.spansAt new).module m) := by
  obtain ⟨names, hpath, hat⟩ := h.exists_names
  constructor
  · exact (FileTree.canonical_mapTexts _ tree m.path).trans h.canonical
  · simp only [Relabelling.module, renameTo, RenamePlan.applyTo, hpath,
      FileTree.readText_mapTexts _ tree hat]

/-- An import statement leads to the renamed module. -/
theorem Resolves.applyTo {importer : Path} {s : ImportStatement} {d : Module}
    (h : Resolves config tree importer s d) (g : Identifier → Identifier) :
    Resolves config (plan.applyTo new tree) importer (s.map g)
      ((renameTo chosen plan.spansAt new).module d) := by
  obtain ⟨target, htarget, hpath⟩ := h.target
  refine ⟨⟨target, ?_, ?_⟩, h.onDisk.applyTo.text⟩
  · exact (resolvePackage?_mapTexts _ tree _ _ _ _).trans htarget
  · exact hpath.trans (FileTree.canonical_mapTexts _ tree target).symm

end Applied

/-- A module is known, or a known module depends on it. -/
def InReach (config : Config) (tree : FileTree) (w : Workspace) (m : Module) : Prop :=
  m.path ∈ w.modulePaths ∨ ∃ start : Module, start.path ∈ w.modulePaths ∧
    config.compileModule tree start.path none = .ok start ∧
    Relation.TransGen (DependsOn config tree) start m

theorem InReach.dependsOn {m d : Module} (h : InReach config tree w m)
    (hlinked : Linked config tree m) (hdisk : OnDisk tree m)
    (hdepends : DependsOn config tree m d) : InReach config tree w d := by
  rcases h with hknown | ⟨start, hstart, hcompile, hreach⟩
  · exact .inr ⟨m, hknown, compileModule_of_onDisk hlinked hdisk, .single hdepends⟩
  · exact .inr ⟨start, hstart, hcompile, hreach.tail hdepends⟩

/-- What a rename makes of modules: the bindings of the rename class get the new
name, and the text and its places change by the edits of the plan. -/
noncomputable abbrev RenamePlan.relabelling (plan : RenamePlan) (config : Config) (tree : FileTree)
    (w : Workspace) (owner : Binding) (new : String) : Relabelling :=
  renameTo (RenameClass config tree w owner) plan.spansAt new

/-- A module imports nothing from a rename class, unless it is known and gets edited. -/
def Spared (config : Config) (tree : FileTree) (w : Workspace) (owner : Binding) (m : Module) :
    Prop :=
  m.path ∉ w.modulePaths →
    ∀ s ∈ m.table.imported, ¬ RenameClass config tree w owner s.sourceBinding

/-- A module is linked after the rename when all is spared that it depends on. -/
theorem Planned.linked_of_spared {root : Path} {new : String}
    (h : Planned config tree w owner plan)
    (hscan : Workspace.scan tree config.extension root = .ok w) (hnew : IsIdentifier new.toList)
    (hlacks : w.Lacks tree new) {m : Module} (hlinked : Linked config tree m)
    (hdisk : OnDisk tree m)
    (hspared : ∀ d, Relation.ReflTransGen (DependsOn config tree) m d →
      Spared config tree w owner d) :
    Linked config (plan.applyTo new tree)
      ((plan.relabelling config tree w owner new).module m) := by
  obtain ⟨e, howner⟩ := h.grounded
  have hname : ∀ {b}, RenameClass config tree w owner b → b.name = owner.name :=
    fun hclass => (hclass.grounded hscan howner).1
  induction hlinked with
  | @intro m ds links linked ih =>
    have hdepends : ∀ d ∈ ds, DependsOn config tree m d := fun d hd => ⟨ds, links, linked, hd⟩
    have hmLinked : Linked config tree m := .intro links linked
    have hds : ∀ d ∈ ds, Linked config (plan.applyTo new tree)
        ((plan.relabelling config tree w owner new).module d) := fun d hd =>
      ih d hd (hdepends d hd).onDisk fun e he => hspared e (.head (hdepends d hd) he)
    obtain ⟨outline, hparse, hresolves, hlinks⟩ := links
    obtain ⟨tokens, phrases, htokens, hphrases, rfl⟩ := parse_eq_ok_iff.1 hparse
    have hhits : Hits (RenameClass config tree w owner) (plan.spansAt m.path) m.path tokens phrases
        ds := by
      by_cases hknown : m.path ∈ w.modulePaths
      · exact hits_of_known h hscan ⟨hknown, compileModule_of_onDisk hmLinked hdisk, htokens,
          hphrases, hresolves.length_eq, hlinks⟩
      · refine hits_of_unknown h hdisk hknown fun taken htaken => ?_
        obtain ⟨s, hs, symbol, -, rfl⟩ := exists_right_of_forall₂ hlinks.imported htaken
        exact hspared m .refl hknown _ hs
    obtain ⟨hparse', hnodup⟩ :=
      parse_replaceSpans htokens hphrases hnew hhits.tokens hhits.segments
    have hfresh : ∀ a, RenameClass config tree w owner ⟨m.path, a⟩ →
        ∀ i ∈ (outlineOf phrases).identifiers, i.text ≠ new := by
      intro a hclass i hi
      exact hlacks.text_ne (hclass.known h.known) hdisk.text htokens hphrases hi
    have hfits : (plan.relabelling config tree w owner new).Fits
        (Identifier.replaced (plan.spansAt m.path) new) m.path (outlineOf phrases) ds :=
      hhits.fits (fun a b ha hb => (hname ha).trans (hname hb).symm) hfresh hnodup
    have hlinked' : LinkedTo config (plan.applyTo new tree)
        ((plan.relabelling config tree w owner new).module m)
        (ds.map (plan.relabelling config tree w owner new).module) := by
      refine ⟨_, hparse', ?_, ?_⟩
      · exact forall₂_map_of_mem hresolves fun s _ d hs => hs.applyTo _
      · exact hlinks.relabel hfits fun d hd => (hds d hd).nodup_names
    exact .intro hlinked' (List.forall_mem_map.2 hds)

/-- Linked modules are linked after the rename. -/
theorem Planned.linked {root : Path} {new : String} (h : Planned config tree w owner plan)
    (hscan : Workspace.scan tree config.extension root = .ok w)
    (hreentry : w.NoReentry config tree) (hnew : IsIdentifier new.toList)
    (hlacks : w.Lacks tree new) {m : Module} (hlinked : Linked config tree m)
    (hdisk : OnDisk tree m) (hreach : InReach config tree w m) :
    Linked config (plan.applyTo new tree)
      ((plan.relabelling config tree w owner new).module m) := by
  refine h.linked_of_spared hscan hnew hlacks hlinked hdisk fun d hd hunknown s hs hclass => ?_
  have hreached : Linked config tree d ∧ OnDisk tree d ∧ InReach config tree w d := by
    clear hunknown hs
    induction hd with
    | refl => exact ⟨hlinked, hdisk, hreach⟩
    | tail _ hdepends ih =>
      exact ⟨hdepends.linked, hdepends.onDisk, ih.2.2.dependsOn ih.1 ih.2.1 hdepends⟩
  obtain ⟨start, hstart, hcompile, hpath⟩ := hreached.2.2.resolve_left hunknown
  obtain ⟨e, hdepends, hgrounded⟩ := hreached.1.exists_dependency hs
  have hsource := hclass.known h.known
  rw [← hgrounded.path] at hsource
  exact hreentry start d e hstart hcompile hpath hunknown hdepends hsource

/-- A rename keeps the meaning of a workspace: the workspace has the same files, and
each of them compiles to the relabelled module, the bindings of the rename class,
which all have the old name, having got the new one. -/
structure KeepsMeaning (config : Config) (tree : FileTree) (w : Workspace) (root : Path)
    (start owner : Binding) (plan : RenamePlan) (new : String) : Prop where
  /-- The owner of the name is where the climb from the start ends. -/
  climb : Relation.ReflTransGen (ClimbsWithin config tree w) start owner
  climb_ends : ∀ next, ¬ ClimbsWithin config tree w owner next
  old_name : ∀ b, RenameClass config tree w owner b → b.name = start.name
  scan : Workspace.scan (plan.applyTo new tree) config.extension root = .ok w
  compiled : ∀ p ∈ w.modulePaths, ∃ m, config.compileModule tree p none = .ok m ∧
    config.compileModule (plan.applyTo new tree) p none =
      .ok ((plan.relabelling config tree w owner new).module m)

/-- A completed rename keeps the meaning of the workspace. -/
theorem rename_preserves {root file : Path} {name new : String}
    (hscan : Workspace.scan tree config.extension root = .ok w) (hfile : file ∈ w.modulePaths)
    (hreentry : w.NoReentry config tree)
    (hplan : (planRenameSymbol config.compiler config file name root tree).1 =
      .ok (.completed plan))
    (hedits : plan.edits ≠ []) (hnew : IsIdentifier new.toList) (hlacks : w.Lacks tree new) :
    ∃ owner, KeepsMeaning config tree w root ⟨file, name⟩ owner plan new := by
  obtain ⟨hall, index, owner, d, hindex, hclimb, howner, hname, hknown, hends, heq⟩ :=
    exists_owner_of_completed hscan hfile hplan hedits
  have hplanned := planned_of_edits hscan hindex howner hknown hends heq
  refine ⟨owner, hclimb, hends, ?_, ?_, ?_⟩
  · intro b hclass
    exact (hclass.grounded hscan howner).1.trans hname
  · rw [RenamePlan.applyTo, Workspace.scan_mapTexts, hscan]
  · intro p hp
    obtain ⟨m, hm⟩ := hall p hp
    obtain ⟨rfl, hlinked, hdisk⟩ := Workspace.compiled_of_mem_modulePaths hscan hp hm
    have hlinked' := hplanned.linked hscan hreentry hnew hlacks hlinked hdisk (.inl hp)
    exact ⟨m, hm, compileModule_of_onDisk hlinked' hdisk.applyTo⟩

/-- The workspace of the two modules. -/
def aliasWorkspace : Workspace := ⟨⟨"/w"⟩, .insertAll .empty [⟨"/w/a.ol"⟩, ⟨"/w/b.ol"⟩]⟩

/-- The plan that renames the name where it is declared and behind the alias. -/
def aliasPlan : RenamePlan :=
  ⟨[(⟨"/w/a.ol"⟩, [⟨⟨0, 5, 10⟩, "Shape"⟩]), (⟨"/w/b.ol"⟩, [⟨⟨0, 15, 20⟩, "Shape"⟩])]⟩

/-- The name is renamed behind the alias, and the alias stays. -/
theorem rename_preserves_alias :
    ((aliasPlan.applyTo "Form" aliasTree).readText ⟨"/w/b.ol"⟩).toOption =
        some "from .a import Form as S\ntype T {S a}" ∧
      ∃ owner, KeepsMeaning .default aliasTree aliasWorkspace ⟨"/w"⟩ ⟨⟨"/w/a.ol"⟩, "Shape"⟩ owner
        aliasPlan "Form" := by
  have hscan : Workspace.scan aliasTree Config.default.extension ⟨"/w"⟩ = .ok aliasWorkspace :=
    eq_ok_of_toOption (by decide +kernel)
  have hclosed : ∀ p ∈ aliasWorkspace.modulePaths, ∀ text ∈ (aliasTree.readText p).toOption,
      ∀ outline ∈ (Outline.parse text).toOption, ∀ s ∈ outline.imports, ∀ target ∈
        resolvePackage? aliasTree p.parent s.package Config.default.searchFolders
          Config.default.extension, aliasTree.canonical target ∈ aliasWorkspace.modulePaths := by
    decide +kernel
  have hreentry : aliasWorkspace.NoReentry .default aliasTree := by
    refine Workspace.Closed.noReentry (fun p hp text outline htext hparse => ?_) hscan
    exact hclosed p hp text (congrArg Except.toOption htext) outline
      (congrArg Except.toOption hparse)
  have hlacks : ∀ p ∈ aliasWorkspace.modulePaths, ∀ text ∈ (aliasTree.readText p).toOption,
      ∀ tokens ∈ (tokenize text).toOption, ∀ t ∈ tokens, t.kind = .identifier →
        t.lexeme ≠ "Form" := by
    decide +kernel
  have hplan : (planRenameSymbol Config.default.compiler .default ⟨"/w/a.ol"⟩ "Shape" ⟨"/w"⟩
      aliasTree).1 = .ok (.completed aliasPlan) :=
    eq_ok_of_toOption (by decide +kernel)
  refine ⟨by decide +kernel, rename_preserves hscan (by decide +kernel) hreentry hplan nofun
    (by decide) fun p hp text tokens htext htokens => ?_⟩
  exact hlacks p hp text (congrArg Except.toOption htext) tokens (congrArg Except.toOption htokens)

end SymbolAtlas
