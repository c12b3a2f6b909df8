import SymbolAtlas.Proofs.Climb
import SymbolAtlas.Proofs.ReferenceIndex
import SymbolAtlas.Proofs.Spread

/-!
# Indexes of linked modules

The modules that a request indexes are linked and on disk, whether or not they are
those of one workspace.  In such an index the name of a binding, its origin and the
file that grounds it do not depend on who asks: a climb leads from module to
imported module, under one name and with one origin, and a spread from the end of a
climb finds exactly what climbs to it.

## Main Definitions

* `Grounded`: a binding is bound in the linked module at its path.
* `OriginOf`: the declaration behind a binding.
* `TakesFrom`: one step along unaliased imports.
* `IndexesLinked`: an index of modules that are linked and on disk.

## Main Statements

* `Grounded.takesFrom_all`, `OriginOf.takesFrom_all`: unaliased imports lead to
  dependencies, under one name and with one origin.
* `ImportIndex.Consistent.reaches_of_climb`: a spread leads back along a climb.
* `ImportIndex.Consistent.mentions_spread_of_rootBinding`: a spread leads back to where the
  climb to its root started.
* `IndexesLinked.climb_all`: a climb keeps the name and the origin.
* `IndexesLinked.rootBinding_ends`: where a climb ends.
* `IndexesLinked.reaches_iff_climbs`: a spread reaches what climbs to its root.
* `IndexesLinked.mentions_spread_iff`: what a spread finds in an indexed module.
-/

namespace SymbolAtlas

variable {config : Config} {tree : FileTree}

/-! ## Grounded bindings -/

/-- A name is bound in the linked module at a path. -/
structure Grounded (config : Config) (tree : FileTree) (b : Binding) (d : Module) : Prop where
  linked : Linked config tree d
  onDisk : OnDisk tree d
  path : d.path = b.module
  bound : b.name ∈ d.table.names

theorem Grounded.compiled {b : Binding} {d : Module} (h : Grounded config tree b d) :
    config.compileModule tree b.module none = .ok d := by
  rw [← h.path]
  exact compileModule_of_onDisk h.linked h.onDisk

/-- Linked modules on disk with the same path are equal. -/
theorem Linked.eq_of_same {m d : Module} (hm : Linked config tree m) (hmDisk : OnDisk tree m)
    (hd : Linked config tree d) (hdDisk : OnDisk tree d) (h : m.path.same d.path = true) :
    m = d := by
  obtain ⟨hpath, hsource⟩ := hmDisk.eq_of_same hdDisk h
  exact hm.unique hd hpath hsource

/-- What a module imports is bound in the module that it is imported from, and has
the origin that it has there. -/
theorem Linked.exists_source {m : Module} (h : Linked config tree m) {s : ImportedSymbol}
    (hs : s ∈ m.table.imported) :
    ∃ d symbol, DependsOn config tree m d ∧ d.path = s.source.module ∧
      d.table.lookup s.source.name = some symbol ∧ s.origin = symbol.originIn d.path := by
  cases h with
  | @intro _ ds links linked =>
    obtain ⟨outline, -, hresolves, hlinks⟩ := id links
    obtain ⟨pair, hpair, item, -, symbol, hsymbol, rfl⟩ := hlinks.exists_item hs
    have hd : pair.2 ∈ ds := (List.of_mem_zip hpair).2
    exact ⟨pair.2, symbol, ⟨ds, links, linked, hd⟩, rfl, hsymbol, rfl⟩

/-- What a module imports is grounded in a dependency, and has the origin that it has
there. -/
theorem Linked.exists_grounded_source {m : Module} (h : Linked config tree m)
    {s : ImportedSymbol} (hs : s ∈ m.table.imported) :
    ∃ d symbol, DependsOn config tree m d ∧ Grounded config tree s.sourceBinding d ∧
      d.table.lookup s.source.name = some symbol ∧ s.origin = symbol.originIn d.path := by
  obtain ⟨d, symbol, hdep, hpath, hsymbol, horigin⟩ := h.exists_source hs
  refine ⟨d, symbol, hdep, ⟨hdep.linked, hdep.onDisk, hpath, ?_⟩, hsymbol, horigin⟩
  exact SymbolTable.isSome_lookup_iff.1 (Option.isSome_of_eq_some hsymbol)

theorem Linked.exists_dependency {m : Module} (h : Linked config tree m) {s : ImportedSymbol}
    (hs : s ∈ m.table.imported) :
    ∃ d, DependsOn config tree m d ∧ Grounded config tree s.sourceBinding d := by
  obtain ⟨d, -, hdep, hsource, -⟩ := h.exists_grounded_source hs
  exact ⟨d, hdep, hsource⟩

/-- An import without alias binds the name that it imports. -/
theorem Linked.name_of_unaliased {m : Module} (h : Linked config tree m) {s : ImportedSymbol}
    (hs : s ∈ m.table.imported) (hunaliased : s.aliased = false) : s.source.name = s.name := by
  cases h with
  | intro links _ =>
    obtain ⟨outline, -, -, hlinks⟩ := links
    obtain ⟨pair, -, item, -, symbol, -, rfl⟩ := hlinks.exists_item hs
    have hnone : item.alias? = none := by simpa [ImportItem.importedAs] using hunaliased
    simp [ImportItem.importedAs, ImportItem.binding, hnone]

theorem Linked.nodup_names {m : Module} (h : Linked config tree m) : m.table.names.Nodup := by
  cases h with
  | intro links _ =>
    obtain ⟨outline, -, -, hlinks⟩ := links
    exact hlinks.nodup

/-- A name that is used is bound. -/
theorem Linked.mem_names_of_use {m : Module} (h : Linked config tree m) {name : String}
    {span : Span} (hspan : span ∈ m.table.usesOf name) : name ∈ m.table.names := by
  obtain ⟨_, _, hindexes⟩ := h.exists_indexesReferences
  by_contra hname
  rw [hindexes.unbound name hname] at hspan
  cases hspan

theorem mem_imported_of_lookup {t : SymbolTable} {name : String} {s : ImportedSymbol}
    (h : t.lookup name = some (.imported s)) : s ∈ t.imported ∧ s.name = name := by
  obtain ⟨hname, ⟨_, _, heq⟩ | ⟨s', hs', heq⟩⟩ := SymbolTable.lookup_eq_some h
  · cases heq
  · obtain rfl := Symbol.imported.inj heq
    exact ⟨hs', hname⟩

theorem mem_declared_of_lookup {t : SymbolTable} {name : String} {s : DeclaredSymbol}
    (h : t.lookup name = some (.declared s)) : s ∈ t.declared ∧ s.name = name := by
  obtain ⟨hname, ⟨s', hs', heq⟩ | ⟨_, _, heq⟩⟩ := SymbolTable.lookup_eq_some h
  · obtain rfl := Symbol.declared.inj heq
    exact ⟨hs', hname⟩
  · cases heq

/-- Grounded bindings that are the same are equal. -/
theorem Grounded.eq_of_same {b b' : Binding} {d d' : Module} (hb : Grounded config tree b d)
    (hb' : Grounded config tree b' d') (h : b.same b' = true) : b = b' := by
  obtain ⟨hmodule, hname⟩ := Binding.same_iff.1 h
  rw [← hb.path, ← hb'.path] at hmodule
  have hpath := (hb.onDisk.eq_of_same hb'.onDisk hmodule).1
  rw [hb.path, hb'.path] at hpath
  cases b
  cases b'
  simp_all

/-! ## Origins -/

/-- The declaration behind a binding, as its module says. -/
def OriginOf (config : Config) (tree : FileTree) (b : Binding) (origin : Origin) : Prop :=
  ∃ m symbol, config.compileModule tree b.module none = .ok m ∧
    m.table.lookup b.name = some symbol ∧ origin = symbol.originIn m.path

theorem OriginOf.unique {b : Binding} {origin origin' : Origin}
    (h : OriginOf config tree b origin) (h' : OriginOf config tree b origin') :
    origin = origin' := by
  obtain ⟨m, symbol, hm, hsymbol, rfl⟩ := h
  obtain ⟨m', symbol', hm', hsymbol', rfl⟩ := h'
  obtain rfl := Except.ok.inj (hm.symm.trans hm')
  rw [Option.some.inj (hsymbol.symm.trans hsymbol')]

theorem Grounded.exists_originOf {b : Binding} {d : Module} (h : Grounded config tree b d) :
    ∃ origin, OriginOf config tree b origin := by
  obtain ⟨symbol, hsymbol⟩ :=
    Option.isSome_iff_exists.1 (SymbolTable.isSome_lookup_iff.2 h.bound)
  exact ⟨_, d, symbol, h.compiled, hsymbol, rfl⟩

/-- An import has the origin of what it imports. -/
theorem Linked.originOf_source {m : Module} (h : Linked config tree m) {s : ImportedSymbol}
    (hs : s ∈ m.table.imported) : OriginOf config tree s.sourceBinding s.origin := by
  obtain ⟨d, symbol, -, hsource, hsymbol, horigin⟩ := h.exists_grounded_source hs
  exact ⟨d, symbol, hsource.compiled, hsymbol, horigin⟩

/-! ## Unaliased imports -/

/-- An unaliased import leads from the name that it binds to the name that it takes, as
its module says that is compiled alone. -/
def TakesFrom (config : Config) (tree : FileTree) (b next : Binding) : Prop :=
  ∃ m s, config.compileModule tree b.module none = .ok m ∧
    m.table.lookup b.name = some (.imported s) ∧ s.aliased = false ∧ next = s.sourceBinding

/-- An unaliased import leads to a dependency, under the same name. -/
theorem Grounded.takesFrom {b next : Binding} {d : Module} (hb : Grounded config tree b d)
    (hstep : TakesFrom config tree b next) :
    next.name = b.name ∧ ∃ e, DependsOn config tree d e ∧ Grounded config tree next e := by
  obtain ⟨m, s, hm, hlookup, hunaliased, rfl⟩ := hstep
  obtain rfl := Except.ok.inj (hb.compiled.symm.trans hm)
  obtain ⟨hs, hname⟩ := mem_imported_of_lookup hlookup
  refine ⟨?_, hb.linked.exists_dependency hs⟩
  rw [← hname]
  exact hb.linked.name_of_unaliased hs hunaliased

theorem Grounded.takesFrom_all {b last : Binding} {d : Module} (hb : Grounded config tree b d)
    (h : Relation.ReflTransGen (TakesFrom config tree) b last) :
    last.name = b.name ∧ ∃ e, Relation.ReflTransGen (DependsOn config tree) d e ∧
      Grounded config tree last e := by
  induction h with
  | refl => exact ⟨rfl, d, .refl, hb⟩
  | tail _ hstep ih =>
    obtain ⟨hname, e, hreach, he⟩ := ih
    obtain ⟨hname', e', hdep, he'⟩ := he.takesFrom hstep
    exact ⟨hname'.trans hname, e', hreach.tail hdep, he'⟩

/-- An unaliased import keeps the origin. -/
theorem OriginOf.takesFrom {b next : Binding} {origin : Origin}
    (h : OriginOf config tree b origin) (hstep : TakesFrom config tree b next) :
    OriginOf config tree next origin := by
  obtain ⟨m, s, hm, hlookup, -, rfl⟩ := hstep
  have hown : OriginOf config tree b s.origin := ⟨m, _, hm, hlookup, rfl⟩
  rw [h.unique hown]
  exact (linked_of_compileModule hm).2.1.originOf_source (mem_imported_of_lookup hlookup).1

theorem OriginOf.takesFrom_all {b last : Binding} {origin : Origin}
    (h : OriginOf config tree b origin)
    (hreach : Relation.ReflTransGen (TakesFrom config tree) b last) :
    OriginOf config tree last origin := by
  induction hreach with
  | refl => exact h
  | tail _ hstep ih => exact ih.takesFrom hstep

/-! ## A spread leads back along a climb -/

namespace ImportIndex

variable {index : ImportIndex}

/-- A climb takes steps. -/
theorem climbsTo_of_climb {steps : Nat} {visited : List Binding} {current last : Binding}
    (h : index.climb steps visited current = .ok last) :
    Relation.ReflTransGen index.ClimbsTo current last := by
  induction steps generalizing visited current with
  | zero =>
    obtain rfl := Except.ok.inj h
    exact .refl
  | succ steps ih =>
    rw [climb] at h
    cases hstep : index.climbStep current with
    | error missing => simp [hstep] at h
    | ok next? =>
      rw [hstep] at h
      cases next? with
      | none =>
        obtain rfl := Except.ok.inj h
        exact .refl
      | some next =>
        dsimp only at h
        split at h
        · obtain rfl := Except.ok.inj h
          exact .refl
        · exact .head hstep (ih h)

/-- A step of a climb passes an unaliased import of the binding that it leads to. -/
theorem Consistent.exists_importer (h : index.Consistent) {b next : Binding}
    (hstep : index.ClimbsTo b next) :
    ∃ i ∈ index.importersOf next, i.aliased = false ∧ i.binding.same b = true := by
  obtain ⟨m, s, hm, hlookup, hunaliased, rfl⟩ := climbsTo_iff.1 hstep
  obtain ⟨hs, hname⟩ := mem_imported_of_lookup hlookup
  have hpath : m.path.same b.module = true := by simpa using List.find?_some hm
  refine ⟨s.importer m.path, ?_, hunaliased, Binding.same_iff.2 ⟨hpath, hname⟩⟩
  rw [h.importersOf_eq, mem_importsIn]
  exact ⟨m, List.mem_of_find?_eq_some hm, s, hs, Binding.same_refl _, rfl⟩

/-- From the end of a climb, unaliased imports lead back to where it started. -/
theorem Consistent.reaches_of_climb (h : index.Consistent) {b last : Binding}
    (hclimb : Relation.ReflTransGen index.ClimbsTo b last) :
    ∃ back, index.Reaches last back ∧ back.same b = true := by
  induction hclimb using Relation.ReflTransGen.head_induction_on with
  | refl => exact ⟨last, .root, last.same_refl⟩
  | head hstep _ ih =>
    obtain ⟨back, hreach, hsame⟩ := ih
    obtain ⟨i, hi, hunaliased, hback⟩ := h.exists_importer hstep
    rw [← importersOf_congr hsame] at hi
    exact ⟨i.binding, .step hreach hi hunaliased, hback⟩

/-- A spread finds what is used where the climb to its root started. -/
theorem Consistent.mentions_spread_of_rootBinding (h : index.Consistent) {start owner : Binding}
    (hroot : index.rootBinding start = .ok owner) {m : Module}
    (hm : index.module? start.module = some m) {span : Span}
    (hspan : span ∈ m.table.usesOf start.name) :
    (index.spread owner).Mentions start.module span := by
  obtain ⟨back, hreach, hsame⟩ := h.reaches_of_climb (climbsTo_of_climb hroot)
  refine mentions_spread.2 ⟨back, hreach, locatesAt_congr (Binding.same_symm hsame) ?_⟩
  exact .inl ⟨Path.same_refl _, m, hm, hspan⟩

end ImportIndex

theorem Locations.mem_pairs {l : Locations} {place : Path × Span} :
    place ∈ l.pairs ↔ ∃ entry ∈ l.entries, entry.1 = place.1 ∧ place.2 ∈ entry.2 := by
  simp only [pairs, List.mem_flatMap, List.mem_map]
  constructor
  · rintro ⟨entry, hentry, span, hspan, rfl⟩
    exact ⟨entry, hentry, rfl, hspan⟩
  · rintro ⟨entry, hentry, hpath, hspan⟩
    exact ⟨entry, hentry, place.2, hspan, Prod.ext hpath rfl⟩

/-! ## Linked indexes -/

/-- An index of modules that are linked and on disk. -/
structure IndexesLinked (config : Config) (tree : FileTree) (index : ImportIndex) : Prop where
  consistent : index.Consistent
  linked : ∀ m ∈ index.modules, Linked config tree m ∧ OnDisk tree m

namespace IndexesLinked

variable {index : ImportIndex} {b next last owner : Binding} {d m : Module}

/-- What an indexed module binds is grounded in it. -/
theorem grounded (h : IndexesLinked config tree index) (hm : m ∈ index.modules) {name : String}
    (hname : name ∈ m.table.names) : Grounded config tree ⟨m.path, name⟩ m :=
  ⟨(h.linked m hm).1, (h.linked m hm).2, rfl, hname⟩

/-- Indexed modules with the same path are equal. -/
theorem eq_of_same (h : IndexesLinked config tree index) (hd : d ∈ index.modules)
    (hm : m ∈ index.modules) (hsame : d.path.same m.path = true) : d = m :=
  (h.linked d hd).1.eq_of_same (h.linked d hd).2 (h.linked m hm).1 (h.linked m hm).2 hsame

/-- The indexed module of a grounded binding is the one that grounds it. -/
theorem eq_of_module? (h : IndexesLinked config tree index) (hb : Grounded config tree b d)
    (hm : index.module? b.module = some m) : m = d := by
  obtain ⟨hindexed, hsame⟩ := h.consistent.module?_eq_some_iff.1 hm
  obtain ⟨hlinked, hdisk⟩ := h.linked m hindexed
  rw [← hb.path] at hsame
  exact hlinked.eq_of_same hdisk hb.linked hb.onDisk hsame

/-! ### Climbing -/

/-- From a grounded binding, a step of a climb passes an unaliased import. -/
theorem takesFrom (h : IndexesLinked config tree index) (hb : Grounded config tree b d)
    (hstep : index.ClimbsTo b next) : TakesFrom config tree b next := by
  obtain ⟨m, s, hm, hlookup, hunaliased, hnext⟩ := ImportIndex.climbsTo_iff.1 hstep
  obtain rfl := h.eq_of_module? hb hm
  exact ⟨m, s, hb.compiled, hlookup, hunaliased, hnext⟩

theorem takesFrom_all (h : IndexesLinked config tree index) (hb : Grounded config tree b d)
    (hclimb : Relation.ReflTransGen index.ClimbsTo b last) :
    Relation.ReflTransGen (TakesFrom config tree) b last := by
  induction hclimb with
  | refl => exact .refl
  | tail _ hstep ih =>
    obtain ⟨-, e, -, he⟩ := hb.takesFrom_all ih
    exact ih.tail (h.takesFrom he hstep)

/-- A climb keeps the name and the origin, and follows dependencies. -/
theorem climb_all (h : IndexesLinked config tree index) (hb : Grounded config tree b d)
    (hclimb : Relation.ReflTransGen index.ClimbsTo b last) :
    last.name = b.name ∧ (∀ origin, OriginOf config tree b origin →
      OriginOf config tree last origin) ∧
      ∃ e, Relation.ReflTransGen (DependsOn config tree) d e ∧ Grounded config tree last e := by
  have hreach := h.takesFrom_all hb hclimb
  obtain ⟨hname, hlast⟩ := hb.takesFrom_all hreach
  exact ⟨hname, fun _ horigin => horigin.takesFrom_all hreach, hlast⟩

/-- No climb leads back to where it started. -/
theorem not_same_of_climb (h : IndexesLinked config tree index) (hb : Grounded config tree b d)
    (hclimb : Relation.TransGen index.ClimbsTo b next) : b.same next = false := by
  obtain ⟨first, hfirst, hrest⟩ := Relation.TransGen.head'_iff.1 hclimb
  obtain ⟨-, e, hdep, he⟩ := hb.takesFrom (h.takesFrom hb hfirst)
  obtain ⟨-, -, e', hreach, he'⟩ := h.climb_all he hrest
  have hpath := hb.linked.not_same_of_reach hb.onDisk (.head' hdep hreach)
  rw [hb.path, he'.path] at hpath
  rw [Binding.same, hpath, Bool.false_and]

/-- The climb from a grounded binding ends where there is no step to take, or at a
module that is not indexed. -/
theorem rootBinding_ends (h : IndexesLinked config tree index) (hb : Grounded config tree b d) :
    ∃ last, index.EndsAt b last (index.rootBinding b) := by
  refine ImportIndex.rootBinding_ends fun {x y} hx hy => ?_
  obtain ⟨-, -, e, -, he⟩ := h.climb_all hb hx
  exact h.not_same_of_climb he hy

/-- A climb gives the binding where there is no step to take. -/
theorem rootBinding_eq_ok_iff (h : IndexesLinked config tree index)
    (hb : Grounded config tree b d) :
    index.rootBinding b = .ok last ↔
      Relation.ReflTransGen index.ClimbsTo b last ∧ index.climbStep last = .ok none := by
  obtain ⟨last', hreach, hend⟩ := h.rootBinding_ends hb
  constructor
  · intro hroot
    rw [hroot] at hend
    rcases hend with ⟨hstep, heq⟩ | ⟨-, heq⟩
    · rw [Except.ok.inj heq]
      exact ⟨hreach, hstep⟩
    · cases heq
  · rintro ⟨hclimb, hstep⟩
    have hstop : ∀ next, ¬ index.ClimbsTo last next := by simp [ImportIndex.ClimbsTo, hstep]
    have hstop' : ∀ next, ¬ index.ClimbsTo last' next := by
      rcases hend with ⟨hstep', -⟩ | ⟨hstep', -⟩ <;> simp [ImportIndex.ClimbsTo, hstep']
    obtain rfl := walk_end_unique ImportIndex.climbsTo_rightUnique hclimb hstop hreach hstop'
    rcases hend with ⟨-, hroot⟩ | ⟨hstep', -⟩
    · exact hroot
    · rw [hstep] at hstep'
      cases hstep'

/-! ### Spreading -/

/-- An indexed import of a grounded binding. -/
theorem exists_of_mem_importersOf (h : IndexesLinked config tree index)
    (hb : Grounded config tree b d) {i : Importer} (hi : i ∈ index.importersOf b) :
    ∃ m ∈ index.modules, ∃ s ∈ m.table.imported, s.sourceBinding = b ∧ i = s.importer m.path := by
  rw [h.consistent.importersOf_eq, mem_importsIn] at hi
  obtain ⟨m, hm, s, hs, hsame, rfl⟩ := hi
  obtain ⟨e, -, he⟩ := (h.linked m hm).1.exists_dependency hs
  exact ⟨m, hm, s, hs, he.eq_of_same hb hsame, rfl⟩

theorem mem_importersOf (h : IndexesLinked config tree index) (hm : m ∈ index.modules)
    {s : ImportedSymbol} (hs : s ∈ m.table.imported) :
    s.importer m.path ∈ index.importersOf s.sourceBinding := by
  rw [h.consistent.importersOf_eq, mem_importsIn]
  exact ⟨m, hm, s, hs, Binding.same_refl _, rfl⟩

/-- What a spread reaches climbs to its root. -/
theorem climbs_of_reaches (h : IndexesLinked config tree index)
    (howner : Grounded config tree owner d) (hreach : index.Reaches owner b) :
    Relation.ReflTransGen index.ClimbsTo b owner ∧ ∃ e, Grounded config tree b e := by
  induction hreach with
  | root => exact ⟨.refl, d, howner⟩
  | step _ himported hunaliased ih =>
    obtain ⟨hclimb, e, he⟩ := ih
    obtain ⟨m, hm, s, hs, rfl, rfl⟩ := h.exists_of_mem_importersOf he himported
    have hlookup := SymbolTable.lookup_imported (h.linked m hm).1.nodup_names hs
    have hfound := h.consistent.module?_eq_some_iff.2 ⟨hm, m.path.same_refl⟩
    have hstep : index.ClimbsTo ⟨m.path, s.name⟩ s.sourceBinding :=
      ImportIndex.climbsTo_iff.2 ⟨m, s, hfound, hlookup, hunaliased, rfl⟩
    have hname : s.name ∈ m.table.names := List.mem_append_right _ (List.mem_map_of_mem hs)
    exact ⟨.head hstep hclimb, m, h.grounded hm hname⟩

/-- A spread reaches exactly what climbs to its root. -/
theorem reaches_iff_climbs (h : IndexesLinked config tree index)
    (howner : Grounded config tree owner d) (hb : Grounded config tree b m) :
    index.Reaches owner b ↔ Relation.ReflTransGen index.ClimbsTo b owner := by
  refine ⟨fun hreach => (h.climbs_of_reaches howner hreach).1, fun hclimb => ?_⟩
  obtain ⟨back, hreach, hsame⟩ := h.consistent.reaches_of_climb hclimb
  obtain ⟨-, e, he⟩ := h.climbs_of_reaches howner hreach
  rwa [← he.eq_of_same hb hsame]

/-- What a spread finds in an indexed module: the uses of the name of its root, if
that is bound there to the root, and the names that aliased imports of such bindings
mention. -/
theorem mentions_spread_iff (h : IndexesLinked config tree index)
    (howner : Grounded config tree owner d) (hm : m ∈ index.modules) {span : Span} :
    (index.spread owner).Mentions m.path span ↔
      (Relation.ReflTransGen index.ClimbsTo ⟨m.path, owner.name⟩ owner ∧
          span ∈ m.table.usesOf owner.name) ∨
        ∃ s ∈ m.table.imported, s.aliased = true ∧ span = s.source.span ∧
          Relation.ReflTransGen index.ClimbsTo s.sourceBinding owner := by
  rw [ImportIndex.mentions_spread]
  constructor
  · rintro ⟨b, hreach, hlocated⟩
    obtain ⟨hclimb, e, he⟩ := h.climbs_of_reaches howner hreach
    rcases hlocated with ⟨hsame, m', hm', huse⟩ | ⟨i, hi, haliased, hsame, rfl⟩
    · obtain rfl := h.eq_of_module? he hm'
      rw [← he.path] at hsame
      obtain rfl := h.eq_of_same (h.consistent.module?_eq_some_iff.1 hm').1 hm hsame
      have hname : owner.name = b.name := (h.climb_all he hclimb).1
      rw [hname, he.path]
      exact .inl ⟨hclimb, huse⟩
    · obtain ⟨m', hm', s, hs, rfl, rfl⟩ := h.exists_of_mem_importersOf he hi
      obtain rfl := h.eq_of_same hm' hm hsame
      exact .inr ⟨s, hs, haliased, rfl, hclimb⟩
  · rintro (⟨hclimb, huse⟩ | ⟨s, hs, haliased, rfl, hclimb⟩)
    · have hhome := h.grounded hm ((h.linked m hm).1.mem_names_of_use huse)
      have hfound := h.consistent.module?_eq_some_iff.2 ⟨hm, m.path.same_refl⟩
      exact ⟨_, (h.reaches_iff_climbs howner hhome).2 hclimb,
        .inl ⟨Path.same_refl _, m, hfound, huse⟩⟩
    · obtain ⟨e, -, he⟩ := (h.linked m hm).1.exists_dependency hs
      exact ⟨_, (h.reaches_iff_climbs howner he).2 hclimb,
        .inr ⟨_, h.mem_importersOf hm hs, haliased, Path.same_refl _, rfl⟩⟩

/-- The places of a spread are in indexed modules, under their own paths. -/
theorem exists_of_mem_pairs (h : IndexesLinked config tree index)
    (howner : Grounded config tree owner d) {place : Path × Span}
    (hplace : place ∈ (index.spread owner).pairs) : ∃ m ∈ index.modules, m.path = place.1 := by
  obtain ⟨entry, hentry, hpath, -⟩ := Locations.mem_pairs.1 hplace
  obtain ⟨b, hreach, ⟨hmodule, hsome⟩ | ⟨i, hi, -, hmodule⟩⟩ :=
    ImportIndex.fst_of_mem_spread hentry
  · obtain ⟨-, e, he⟩ := h.climbs_of_reaches howner hreach
    obtain ⟨m, hm⟩ := Option.isSome_iff_exists.1 hsome
    obtain rfl := h.eq_of_module? he hm
    exact ⟨m, (h.consistent.module?_eq_some_iff.1 hm).1, by rw [he.path, ← hmodule, hpath]⟩
  · obtain ⟨-, e, he⟩ := h.climbs_of_reaches howner hreach
    obtain ⟨m, hm, s, -, -, rfl⟩ := h.exists_of_mem_importersOf he hi
    exact ⟨m, hm, hmodule.symm.trans hpath⟩

theorem mem_pairs_iff (h : IndexesLinked config tree index)
    (howner : Grounded config tree owner d) (hm : m ∈ index.modules) {span : Span} :
    (m.path, span) ∈ (index.spread owner).pairs ↔ (index.spread owner).Mentions m.path span := by
  constructor
  · intro hplace
    obtain ⟨entry, hentry, hpath, hspan⟩ := Locations.mem_pairs.1 hplace
    exact ⟨entry, hentry, by rw [hpath]; exact Path.same_refl _, hspan⟩
  · rintro ⟨entry, hentry, hsame, hspan⟩
    have hplace : (entry.1, span) ∈ (index.spread owner).pairs :=
      Locations.mem_pairs.2 ⟨entry, hentry, rfl, hspan⟩
    obtain ⟨m', hm', hpath⟩ := h.exists_of_mem_pairs howner hplace
    rw [← hpath] at hsame hplace
    rwa [h.eq_of_same hm' hm hsame] at hplace

end IndexesLinked

end SymbolAtlas
