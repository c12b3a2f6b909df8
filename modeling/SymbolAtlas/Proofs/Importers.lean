import SymbolAtlas.Proofs.Spread

/-!
# An import index agrees with its modules

The imports of a binding that an index knows are the imports that its modules
have, module by module and in the order of their tables.  Inserting a module and
removing one keep this, so it holds of every index that is built from modules.

## Main Definitions

* `importsIn`: the imports of a binding that some modules have.
* `ImportIndex.Consistent`: an index agrees with its modules.

## Main Statements

* `ImportIndex.Consistent.remove`, `ImportIndex.Consistent.insert`.
* `ImportIndex.consistent_ofModules`: indexes of modules are consistent.
* `ImportIndex.module?_ofModules`: the last module with a path is found.
-/

namespace SymbolAtlas

/-- The imports of a binding that some modules have, in order. -/
def importsIn (modules : List Module) (b : Binding) : List Importer :=
  modules.flatMap fun m =>
    (m.table.imported.filter (·.sourceBinding.same b)).map (·.importer m.path)

theorem mem_importsIn {modules : List Module} {b : Binding} {i : Importer} :
    i ∈ importsIn modules b ↔ ∃ m ∈ modules, ∃ s ∈ m.table.imported,
      s.sourceBinding.same b = true ∧ i = s.importer m.path := by
  simp only [importsIn, List.mem_flatMap, List.mem_map, List.mem_filter]
  constructor
  · rintro ⟨m, hm, s, ⟨hs, hsame⟩, rfl⟩
    exact ⟨m, hm, s, hs, hsame, rfl⟩
  · rintro ⟨m, hm, s, hs, hsame, rfl⟩
    exact ⟨m, hm, s, ⟨hs, hsame⟩, rfl⟩

/-- Leaving out the modules with a path leaves out their imports. -/
theorem filter_importsIn (modules : List Module) (b : Binding) (path : Path) :
    (importsIn modules b).filter (!·.module.same path) =
      importsIn (modules.filter (!·.path.same path)) b := by
  induction modules with
  | nil => rfl
  | cons m modules ih =>
    have hsplit : importsIn (m :: modules) b =
        (m.table.imported.filter (·.sourceBinding.same b)).map (·.importer m.path) ++
          importsIn modules b := rfl
    rw [hsplit, List.filter_append, ih, List.filter_map]
    cases hsame : m.path.same path with
    | true =>
      have hnone : (fun i : Importer => !i.module.same path) ∘ (·.importer m.path) =
          fun _ : ImportedSymbol => false := by
        funext s
        simp [ImportedSymbol.importer, hsame]
      simp [hnone, hsame]
    | false =>
      have hall : (fun i : Importer => !i.module.same path) ∘ (·.importer m.path) =
          fun _ : ImportedSymbol => true := by
        funext s
        simp [ImportedSymbol.importer, hsame]
      rw [hall, List.filter_cons_of_pos (by simp [hsame]), List.filter_eq_self.2 fun _ _ => rfl]
      rfl

/-! ## Entries by binding -/

/-- The imports that are entered under a binding. -/
def importersUnder (b : Binding) (importers : List (Binding × List Importer)) : List Importer :=
  match importers.find? (·.1.same b) with
  | some entry => entry.2
  | none => []

/-- No binding has two entries. -/
def EntriesDistinct (importers : List (Binding × List Importer)) : Prop :=
  importers.Pairwise fun a b => a.1.same b.1 = false

theorem importersUnder_cons (b : Binding) (entry : Binding × List Importer)
    (importers : List (Binding × List Importer)) :
    importersUnder b (entry :: importers) =
      if entry.1.same b then entry.2 else importersUnder b importers := by
  unfold importersUnder
  cases h : entry.1.same b <;> simp [h]

theorem importersUnder_eq_nil {b : Binding} {importers : List (Binding × List Importer)}
    (h : ∀ entry ∈ importers, entry.1.same b = false) : importersUnder b importers = [] := by
  have hnone : importers.find? (·.1.same b) = none :=
    List.find?_eq_none.2 fun entry hentry => by simp [h entry hentry]
  rw [importersUnder, hnone]

theorem importersUnder_addImporter (b source : Binding) (i : Importer)
    (importers : List (Binding × List Importer)) :
    importersUnder b (addImporter source i importers) =
      importersUnder b importers ++ if source.same b then [i] else [] := by
  induction importers with
  | nil =>
    rw [addImporter, importersUnder_cons]
    cases source.same b <;> rfl
  | cons entry importers ih =>
    obtain ⟨other, known⟩ := entry
    rw [addImporter, importersUnder_cons]
    by_cases hother : other.same source = true
    · rw [if_pos hother, importersUnder_cons]
      have hagree : other.same b = source.same b := by
        rw [Bool.eq_iff_iff]
        exact ⟨fun h => Binding.same_trans (Binding.same_symm hother) h,
          fun h => Binding.same_trans hother h⟩
      rw [hagree]
      cases source.same b <;> simp
    · rw [if_neg hother, importersUnder_cons]
      by_cases hb : other.same b = true
      · have hsource : source.same b = false := by
          rw [← Bool.not_eq_true]
          exact fun h => hother (Binding.same_trans hb (Binding.same_symm h))
        simp [hb, hsource]
      · rw [if_neg hb, if_neg hb, ih]

theorem fst_of_mem_addImporter {source : Binding} {i : Importer}
    {importers : List (Binding × List Importer)} {entry : Binding × List Importer}
    (h : entry ∈ addImporter source i importers) :
    entry.1 = source ∨ ∃ old ∈ importers, entry.1 = old.1 := by
  induction importers with
  | nil =>
    rw [addImporter, List.mem_singleton] at h
    exact .inl (by rw [h])
  | cons first importers ih =>
    rw [addImporter] at h
    split at h
    · rcases List.mem_cons.1 h with rfl | h
      · exact .inr ⟨first, List.mem_cons_self, rfl⟩
      · exact .inr ⟨entry, List.mem_cons_of_mem _ h, rfl⟩
    · rcases List.mem_cons.1 h with rfl | h
      · exact .inr ⟨first, List.mem_cons_self, rfl⟩
      · rcases ih h with h | ⟨old, hold, heq⟩
        · exact .inl h
        · exact .inr ⟨old, List.mem_cons_of_mem _ hold, heq⟩

theorem EntriesDistinct.addImporter {importers : List (Binding × List Importer)}
    (h : EntriesDistinct importers) (source : Binding) (i : Importer) :
    EntriesDistinct (addImporter source i importers) := by
  induction importers with
  | nil => exact List.pairwise_singleton _ _
  | cons first importers ih =>
    obtain ⟨hfirst, hothers⟩ := List.pairwise_cons.1 h
    rw [SymbolAtlas.addImporter]
    split
    · exact List.pairwise_cons.2 ⟨hfirst, hothers⟩
    · next hsource =>
      refine List.pairwise_cons.2 ⟨fun entry hentry => ?_, ih hothers⟩
      rcases fst_of_mem_addImporter hentry with heq | ⟨old, hold, heq⟩
      · rw [heq]
        simpa using hsource
      · rw [heq]
        exact hfirst old hold

/-- Entering the imports of a module adds those of each binding at the end. -/
theorem importersUnder_foldl_addImporter (b : Binding) (path : Path)
    (imported : List ImportedSymbol) (importers : List (Binding × List Importer)) :
    importersUnder b (imported.foldl
        (fun known s => addImporter s.sourceBinding (s.importer path) known) importers) =
      importersUnder b importers ++
        (imported.filter (·.sourceBinding.same b)).map (·.importer path) := by
  induction imported generalizing importers with
  | nil => simp
  | cons s imported ih =>
    rw [List.foldl_cons, ih, importersUnder_addImporter, List.append_assoc]
    cases h : s.sourceBinding.same b <;> simp [h]

theorem EntriesDistinct.foldl_addImporter {importers : List (Binding × List Importer)}
    (h : EntriesDistinct importers) (path : Path) (imported : List ImportedSymbol) :
    EntriesDistinct (imported.foldl
      (fun known s => SymbolAtlas.addImporter s.sourceBinding (s.importer path) known)
      importers) := by
  induction imported generalizing importers with
  | nil => exact h
  | cons s imported ih => exact ih (h.addImporter _ _)

/-- The entries without the imports of one module, and without empty entries. -/
def withoutImporter (path : Path) (importers : List (Binding × List Importer)) :
    List (Binding × List Importer) :=
  (importers.map fun entry => (entry.1, entry.2.filter (!·.module.same path))).filter
    (!·.2.isEmpty)

theorem importersUnder_withoutImporter {importers : List (Binding × List Importer)}
    (h : EntriesDistinct importers) (b : Binding) (path : Path) :
    importersUnder b (withoutImporter path importers) =
      (importersUnder b importers).filter (!·.module.same path) := by
  induction importers with
  | nil => rfl
  | cons entry importers ih =>
    obtain ⟨hfirst, hothers⟩ := List.pairwise_cons.1 h
    have hsplit : withoutImporter path (entry :: importers) =
        (if (entry.2.filter (!·.module.same path)).isEmpty then []
          else [(entry.1, entry.2.filter (!·.module.same path))]) ++
          withoutImporter path importers := by
      unfold withoutImporter
      rw [List.map_cons, List.filter_cons]
      cases (entry.2.filter (!·.module.same path)).isEmpty <;> simp
    rw [hsplit, importersUnder_cons]
    by_cases hb : entry.1.same b = true
    · rw [if_pos hb]
      by_cases hempty : (entry.2.filter (!·.module.same path)).isEmpty = true
      · -- an entry that goes away leaves no other of the same binding behind
        rw [if_pos hempty, List.nil_append, ih hothers, List.isEmpty_iff.1 hempty,
          importersUnder_eq_nil]
        · rfl
        · intro other hother
          rw [← Bool.not_eq_true]
          intro hsame
          have := hfirst other hother
          rw [Binding.same_trans hb (Binding.same_symm hsame)] at this
          cases this
      · rw [if_neg hempty, List.singleton_append, importersUnder_cons, if_pos hb]
    · rw [if_neg hb]
      by_cases hempty : (entry.2.filter (!·.module.same path)).isEmpty = true
      · rw [if_pos hempty, List.nil_append, ih hothers]
      · rw [if_neg hempty, List.singleton_append, importersUnder_cons, if_neg hb, ih hothers]

theorem EntriesDistinct.withoutImporter {importers : List (Binding × List Importer)}
    (h : EntriesDistinct importers) (path : Path) :
    EntriesDistinct (withoutImporter path importers) := by
  refine List.Pairwise.sublist List.filter_sublist (List.pairwise_map.2 ?_)
  exact h

namespace ImportIndex

/-- An index agrees with its modules: it lists the imports of each binding as the
modules have them, and it has each path and each binding once. -/
structure Consistent (index : ImportIndex) : Prop where
  importersOf_eq : ∀ b, index.importersOf b = importsIn index.modules b
  modules : index.modules.Pairwise fun m m' => m.path.same m'.path = false
  entries : EntriesDistinct index.importers

variable {index : ImportIndex}

theorem importersOf_eq_under (index : ImportIndex) (b : Binding) :
    index.importersOf b = importersUnder b index.importers := rfl

theorem consistent_empty : empty.Consistent := ⟨fun _ => rfl, .nil, .nil⟩

/-- Removing a module keeps an index consistent. -/
theorem Consistent.remove (h : index.Consistent) (path : Path) :
    (index.remove path).Consistent ∧
      (index.remove path).modules = index.modules.filter (!·.path.same path) := by
  unfold ImportIndex.remove
  cases hfind : index.module? path with
  | none =>
    have hkept : index.modules.filter (!·.path.same path) = index.modules := by
      refine List.filter_eq_self.2 fun m hm => ?_
      simpa using List.find?_eq_none.1 hfind m hm
    exact ⟨h, hkept.symm⟩
  | some m =>
    refine ⟨⟨fun b => ?_, h.modules.sublist List.filter_sublist, h.entries.withoutImporter path⟩,
      rfl⟩
    have hunder := importersUnder_withoutImporter h.entries b path
    rw [← importersOf_eq_under, h.importersOf_eq, filter_importsIn] at hunder
    exact hunder

/-- Inserting a module keeps an index consistent. -/
theorem Consistent.insert (h : index.Consistent) (m : Module) :
    (index.insert m).Consistent ∧
      (index.insert m).modules = index.modules.filter (!·.path.same m.path) ++ [m] := by
  obtain ⟨hothers, hmodules⟩ := h.remove m.path
  have hinsert : (index.insert m).modules = index.modules.filter (!·.path.same m.path) ++ [m] := by
    rw [← hmodules]
    rfl
  refine ⟨⟨fun b => ?_, ?_, hothers.entries.foldl_addImporter m.path m.table.imported⟩, hinsert⟩
  · have hunder := importersUnder_foldl_addImporter b m.path m.table.imported
      (index.remove m.path).importers
    rw [← importersOf_eq_under, hothers.importersOf_eq, hmodules] at hunder
    rw [hinsert, importsIn, List.flatMap_append, List.flatMap_singleton, ← importsIn]
    exact hunder
  · rw [hinsert]
    refine List.pairwise_append.2 ⟨h.modules.sublist List.filter_sublist,
      List.pairwise_singleton _ _, ?_⟩
    intro other hother last hlast
    obtain rfl := List.mem_singleton.1 hlast
    simpa using (List.mem_filter.1 hother).2

theorem Consistent.foldl_insert (h : index.Consistent) (modules : List Module) :
    (modules.foldl ImportIndex.insert index).Consistent := by
  induction modules generalizing index with
  | nil => exact h
  | cons m modules ih => exact ih (h.insert m).1

/-- The index of some modules is consistent. -/
theorem consistent_ofModules (modules : List Module) : (ofModules modules).Consistent :=
  consistent_empty.foldl_insert modules

theorem Consistent.mem_foldl_insert (h : index.Consistent) {modules : List Module} {m : Module}
    (hm : m ∈ (modules.foldl ImportIndex.insert index).modules) :
    m ∈ index.modules ∨ m ∈ modules := by
  induction modules generalizing index with
  | nil => exact .inl hm
  | cons first modules ih =>
    rcases ih (h.insert first).1 hm with hm | hm
    · rw [(h.insert first).2, List.mem_append, List.mem_singleton] at hm
      rcases hm with hm | rfl
      · exact .inl (List.mem_filter.1 hm).1
      · exact .inr List.mem_cons_self
    · exact .inr (List.mem_cons_of_mem first hm)

theorem mem_of_mem_ofModules {modules : List Module} {m : Module}
    (h : m ∈ (ofModules modules).modules) : m ∈ modules :=
  (consistent_empty.mem_foldl_insert h).resolve_left nofun

theorem Consistent.module?_insert (h : index.Consistent) (m : Module) (path : Path) :
    (index.insert m).module? path =
      if m.path.same path then some m else index.module? path := by
  rw [module?, (h.insert m).2, List.find?_append]
  by_cases hsame : m.path.same path = true
  · have hnone : (index.modules.filter (!·.path.same m.path)).find? (·.path.same path) = none := by
      refine List.find?_eq_none.2 fun other hother hpath => ?_
      have hne : other.path.same m.path = false := by simpa using (List.mem_filter.1 hother).2
      rw [Path.same_trans hpath (Path.same_symm hsame)] at hne
      cases hne
    simp [hnone, hsame]
  · have hfilter : (index.modules.filter (!·.path.same m.path)).find? (·.path.same path) =
        index.module? path := by
      rw [List.find?_filter, module?]
      congr 1
      funext other
      cases hpath : other.path.same path with
      | false => simp
      | true =>
        have hother : other.path.same m.path = false := by
          rw [← Bool.not_eq_true]
          exact fun h => hsame (Path.same_trans (Path.same_symm h) hpath)
        simp [hother]
    rw [hfilter, if_neg hsame]
    simp [hsame]

/-- The module at a path is the one indexed module with that path. -/
theorem Consistent.module?_eq_some_iff (h : index.Consistent) {p : Path} {m : Module} :
    index.module? p = some m ↔ m ∈ index.modules ∧ m.path.same p = true := by
  constructor
  · intro hfind
    exact ⟨List.mem_of_find?_eq_some hfind, by simpa using List.find?_some hfind⟩
  · rintro ⟨hm, hsame⟩
    obtain ⟨front, back, heq⟩ := List.append_of_mem hm
    have hdistinct := h.modules
    rw [heq] at hdistinct
    have hfront : front.find? (·.path.same p) = none := by
      refine List.find?_eq_none.2 fun other hother hpath => ?_
      have hne := (List.pairwise_append.1 hdistinct).2.2 other hother m List.mem_cons_self
      rw [Path.same_trans hpath (Path.same_symm hsame)] at hne
      cases hne
    rw [module?, heq, List.find?_append, hfront, Option.none_or]
    exact List.find?_cons_of_pos hsame

/-- The index of some modules finds those of them, the last one with each path. -/
theorem module?_ofModules (modules : List Module) (path : Path) :
    (ofModules modules).module? path = modules.reverse.find? (·.path.same path) := by
  have hfold : ∀ {index : ImportIndex}, index.Consistent →
      (modules.foldl insert index).module? path =
        (modules.reverse.find? (·.path.same path)).or (index.module? path) := by
    induction modules with
    | nil => exact fun _ => rfl
    | cons m modules ih =>
      intro index h
      rw [List.foldl_cons, ih (h.insert m).1, h.module?_insert, List.reverse_cons,
        List.find?_append]
      cases hsame : m.path.same path <;> simp [hsame]
  rw [ofModules, hfold consistent_empty]
  simp [module?, empty]

end ImportIndex

end SymbolAtlas
