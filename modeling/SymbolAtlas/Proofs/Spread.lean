import SymbolAtlas.ImportIndex.Spread
import SymbolAtlas.Proofs.Ordering

/-!
# What a spread finds

A spread works off an agenda of bindings.  It visits exactly the bindings that
unaliased imports lead to, and at each of them it finds the uses of its name at
home and the names that aliased imports of it mention.  Bindings are compared by
the components of their modules throughout.

The bound on the number of steps is never met: a binding that is visited for the
first time puts its unaliased imports on the agenda, and these are imports of no
binding that was visited before (`openEdges_cons`).

## Main Definitions

* `ImportIndex.Reaches`, `ImportIndex.LocatesAt`: the bindings that unaliased imports
  lead to, and where a binding is named.
* `ImportIndex.WorksOff`: working off an agenda, with no bound on the steps.

## Main Statements

* `ImportIndex.worksOff_spread`: a spread works off its agenda.
* `ImportIndex.mentions_spread`: the locations of a spread.
* `ImportIndex.inOrder_spread`: they are listed in order, without empty modules.
-/

namespace SymbolAtlas

namespace Binding

theorem same_iff {a b : Binding} :
    a.same b = true ↔ a.module.same b.module = true ∧ a.name = b.name := by
  simp [same]

@[simp] theorem same_refl (b : Binding) : b.same b = true := by simp [same]

theorem same_symm {a b : Binding} (h : a.same b = true) : b.same a = true := by
  rw [same_iff] at h ⊢
  exact ⟨Path.same_symm h.1, h.2.symm⟩

theorem same_trans {a b c : Binding} (h : a.same b = true) (h' : b.same c = true) :
    a.same c = true := by
  rw [same_iff] at h h' ⊢
  exact ⟨Path.same_trans h.1 h'.1, h.2.trans h'.2⟩

/-- Comparing with either of two same bindings gives one answer. -/
theorem same_congr {a b : Binding} (h : a.same b = true) (c : Binding) :
    c.same a = c.same b := by
  rw [Bool.eq_iff_iff]
  exact ⟨fun hc => same_trans hc h, fun hc => same_trans hc (same_symm h)⟩

end Binding

namespace ImportIndex

variable {index : ImportIndex}

theorem module?_congr {p q : Path} (h : p.same q = true) : index.module? p = index.module? q := by
  rw [Path.same_iff] at h
  simp only [module?, Path.same, h]

theorem importersOf_congr {a b : Binding} (h : a.same b = true) :
    index.importersOf a = index.importersOf b := by
  simp only [importersOf, Binding.same_congr h]

/-! ## Bindings that unaliased imports lead to -/

/-- Unaliased imports lead from a binding to another one, in any number of steps. -/
inductive Reaches (index : ImportIndex) (root : Binding) : Binding → Prop where
  | root : index.Reaches root root
  | step {b : Binding} {i : Importer} (reached : index.Reaches root b)
      (imported : i ∈ index.importersOf b) (unaliased : i.aliased = false) :
      index.Reaches root i.binding

theorem Reaches.trans {a b c : Binding} (hab : index.Reaches a b) (hbc : index.Reaches b c) :
    index.Reaches a c := by
  induction hbc with
  | root => exact hab
  | step _ himported hunaliased ih => exact .step ih himported hunaliased

/-- A location belongs to a binding: it is a use of the name at home, or the name
that an aliased import of the binding mentions. -/
def LocatesAt (index : ImportIndex) (b : Binding) (p : Path) (s : Span) : Prop :=
  (b.module.same p = true ∧ ∃ m, index.module? b.module = some m ∧ s ∈ m.table.usesOf b.name) ∨
    ∃ i ∈ index.importersOf b, i.aliased = true ∧ i.module.same p = true ∧ s = i.sourceSpan

theorem locatesAt_congr {a b : Binding} (h : a.same b = true) {p : Path} {s : Span}
    (ha : index.LocatesAt a p s) : index.LocatesAt b p s := by
  obtain ⟨hmodule, hname⟩ := Binding.same_iff.1 h
  rcases ha with ⟨hp, m, hm, hs⟩ | ⟨i, hi, hrest⟩
  · refine .inl ⟨Path.same_trans (Path.same_symm hmodule) hp, m, ?_, hname ▸ hs⟩
    rw [← module?_congr hmodule]
    exact hm
  · exact .inr ⟨i, importersOf_congr h ▸ hi, hrest⟩

/-! ## One visit -/

theorem mentions_foldl_add {importers : List Importer} {found : Locations} {p : Path} {s : Span} :
    (importers.foldl (fun found i => found.add i.module [i.sourceSpan]) found).Mentions p s ↔
      (∃ i ∈ importers, i.module.same p = true ∧ s = i.sourceSpan) ∨ found.Mentions p s := by
  induction importers generalizing found with
  | nil => simp
  | cons i importers ih =>
    rw [List.foldl_cons, ih, Locations.mentions_add]
    simp only [List.mem_cons, exists_eq_or_imp, List.not_mem_nil, or_false]
    exact or_left_comm.trans or_assoc.symm

/-- A visit adds the locations of the binding. -/
theorem mentions_visit {b : Binding} {found : Locations} {p : Path} {s : Span} :
    (index.visit b found).Mentions p s ↔ index.LocatesAt b p s ∨ found.Mentions p s := by
  simp only [visit, mentions_foldl_add, LocatesAt, List.mem_filter]
  cases hm : index.module? b.module with
  | none => simp [and_assoc]
  | some m =>
    simp only [Locations.mentions_add, Option.some.injEq, exists_eq_left', and_assoc]
    exact or_left_comm.trans or_assoc.symm

theorem inOrder_visit {b : Binding} {found : Locations} (h : found.InOrder) :
    (index.visit b found).InOrder := by
  have hfold : ∀ (importers : List Importer) {found : Locations}, found.InOrder →
      (importers.foldl (fun found i => found.add i.module [i.sourceSpan]) found).InOrder := by
    intro importers
    induction importers with
    | nil => exact id
    | cons i importers ih => exact fun h => ih (h.add _ _)
  unfold visit
  cases index.module? b.module with
  | none => exact hfold _ h
  | some m => exact hfold _ (h.add _ _)

/-- The modules under which a visit lists locations are spelled as the binding or
as an import of it spells them. -/
theorem fst_of_mem_visit {b : Binding} {found : Locations} {entry : Path × List Span}
    (h : entry ∈ (index.visit b found).entries) :
    entry.1 = b.module ∧ (index.module? b.module).isSome ∨
      (∃ i ∈ index.importersOf b, i.aliased = true ∧ entry.1 = i.module) ∨
      ∃ old ∈ found.entries, entry.1 = old.1 := by
  have hfold : ∀ (importers : List Importer) {found : Locations},
      entry ∈ (importers.foldl (fun found i => found.add i.module [i.sourceSpan]) found).entries →
      (∃ i ∈ importers, entry.1 = i.module) ∨ ∃ old ∈ found.entries, entry.1 = old.1 := by
    intro importers
    induction importers with
    | nil => exact fun h => .inr ⟨entry, h, rfl⟩
    | cons i importers ih =>
      intro found h
      rcases ih h with ⟨j, hj, heq⟩ | ⟨old, hold, heq⟩
      · exact .inl ⟨j, List.mem_cons_of_mem i hj, heq⟩
      · rcases fst_of_mem_alterEntry hold with hmodule | ⟨older, holder, holdeq⟩
        · exact .inl ⟨i, List.mem_cons_self, heq.trans hmodule⟩
        · exact .inr ⟨older, holder, heq.trans holdeq⟩
  rcases hfold _ h with ⟨i, hi, heq⟩ | ⟨old, hold, heq⟩
  · obtain ⟨hi, haliased⟩ := List.mem_filter.1 hi
    exact .inr (.inl ⟨i, hi, haliased, heq⟩)
  · cases hm : index.module? b.module with
    | none =>
      rw [hm] at hold
      exact .inr (.inr ⟨old, hold, heq⟩)
    | some m =>
      rw [hm] at hold
      rcases fst_of_mem_alterEntry hold with hmodule | ⟨older, holder, holdeq⟩
      · exact .inl ⟨heq.trans hmodule, rfl⟩
      · exact .inr (.inr ⟨older, holder, heq.trans holdeq⟩)

/-! ## The agenda is worked off -/

/-- How many imports there are of bindings that were not visited. -/
def openEdges (visited : List Binding) (importers : List (Binding × List Importer)) : Nat :=
  ((importers.filter fun entry => !visited.any (·.same entry.1)).flatMap (·.2)).length

theorem openEdges_cons_importer {visited : List Binding} {entry : Binding × List Importer}
    {importers : List (Binding × List Importer)} :
    openEdges visited (entry :: importers) =
      (if visited.any (·.same entry.1) then 0 else entry.2.length) +
        openEdges visited importers := by
  cases h : visited.any (·.same entry.1) <;> simp [openEdges, h]

/-- Visiting a binding closes its imports. -/
theorem openEdges_cons {visited : List Binding} {b : Binding}
    (hb : visited.any (·.same b) = false) :
    openEdges (b :: visited) index.importers + (index.importersOf b).length ≤
      openEdges visited index.importers := by
  obtain ⟨modules, importers⟩ := index
  simp only [importersOf]
  induction importers with
  | nil => simp [openEdges]
  | cons entry importers ih =>
    simp only [openEdges_cons_importer, List.find?_cons]
    by_cases hentry : entry.1.same b = true
    · have hnew : visited.any (·.same entry.1) = false := by
        simpa only [Binding.same_congr hentry] using hb
      have hold : (b :: visited).any (·.same entry.1) = true := by
        simp [Binding.same_symm hentry]
      simp only [hentry, hnew, hold, if_true, Bool.false_eq_true, if_false]
      omega
    · have hsame : b.same entry.1 = false := by
        rw [← Bool.not_eq_true]
        exact fun h => hentry (Binding.same_symm h)
      have hany : (b :: visited).any (·.same entry.1) = visited.any (·.same entry.1) := by
        simp [hsame]
      rw [Bool.not_eq_true] at hentry
      simp only [hentry, hany]
      omega

/-- A spread has steps for what is on its agenda at first and for all imports. -/
theorem openEdges_le_edgeCount (index : ImportIndex) (root : Binding) :
    [root].length + openEdges [] index.importers ≤ index.edgeCount + 1 := by
  have hall : index.importers.filter (fun entry => !([] : List Binding).any (·.same entry.1)) =
      index.importers := List.filter_eq_self.2 (by simp)
  rw [openEdges, hall, edgeCount, List.length_flatMap, List.length_singleton]
  omega

/-- A binding that is taken up for the first time leaves enough steps for the
imports of it that are put on the agenda. -/
theorem openEdges_visit {steps : Nat} {b : Binding} {agenda visited : List Binding}
    (hsteps : (b :: agenda).length + openEdges visited index.importers ≤ steps + 1)
    (hnew : visited.any (·.same b) = false) :
    ((((index.importersOf b).filter (!·.aliased)).map Importer.binding).reverse ++ agenda).length +
      openEdges (b :: visited) index.importers ≤ steps := by
  have hedges : openEdges (b :: visited) index.importers + (index.importersOf b).length ≤
      openEdges visited index.importers := openEdges_cons hnew
  have hlength : ((index.importersOf b).filter (!·.aliased)).length ≤
      (index.importersOf b).length := List.length_filter_le _ _
  simp only [List.length_cons, List.length_append, List.length_reverse, List.length_map] at hsteps ⊢
  omega

/-- A set of bindings that unaliased imports do not leave. -/
def Closed (index : ImportIndex) (bindings : List Binding) : Prop :=
  ∀ b ∈ bindings, ∀ i ∈ index.importersOf b, i.aliased = false →
    ∃ other ∈ bindings, other.same i.binding = true

/-- With enough steps the bindings visited in the end cover the agenda and are
closed, and all their locations are found. -/
theorem spreadFrom_covers {steps : Nat} {agenda visited : List Binding} {found : Locations}
    (hsteps : agenda.length + openEdges visited index.importers ≤ steps)
    (hclosed : ∀ b ∈ visited, ∀ i ∈ index.importersOf b, i.aliased = false →
      ∃ other ∈ visited ++ agenda, other.same i.binding = true)
    (hfound : ∀ b ∈ visited, ∀ p s, index.LocatesAt b p s → found.Mentions p s) :
    ∃ final : List Binding, index.Closed final ∧
      (∀ b ∈ visited ++ agenda, ∃ other ∈ final, other.same b = true) ∧
      ∀ b ∈ final, ∀ p s, index.LocatesAt b p s →
        (index.spreadFrom steps agenda visited found).Mentions p s := by
  induction steps generalizing agenda visited found with
  | zero =>
    obtain rfl : agenda = [] := List.length_eq_zero_iff.1 (by omega)
    simp only [List.append_nil] at hclosed ⊢
    exact ⟨visited, hclosed, fun b hb => ⟨b, hb, b.same_refl⟩, hfound⟩
  | succ steps ih =>
    cases agenda with
    | nil =>
      simp only [List.append_nil] at hclosed ⊢
      exact ⟨visited, hclosed, fun b hb => ⟨b, hb, b.same_refl⟩, hfound⟩
    | cons b agenda =>
      simp only [spreadFrom]
      split
      · next hseen =>
        obtain ⟨known, hknown, hsame⟩ := List.any_eq_true.1 hseen
        have hcover : ∀ c ∈ visited ++ b :: agenda,
            ∃ other ∈ visited ++ agenda, other.same c = true := by
          intro c hc
          rcases List.mem_append.1 hc with hc | hc
          · exact ⟨c, List.mem_append_left _ hc, c.same_refl⟩
          · rcases List.mem_cons.1 hc with rfl | hc
            · exact ⟨known, List.mem_append_left _ hknown, hsame⟩
            · exact ⟨c, List.mem_append_right _ hc, c.same_refl⟩
        have hfewer : agenda.length + openEdges visited index.importers ≤ steps := by
          simp only [List.length_cons] at hsteps
          omega
        obtain ⟨final, hfinal, hall, hmentions⟩ := ih hfewer
          (fun c hc i hi hali => by
            obtain ⟨other, hother, hsame⟩ := hclosed c hc i hi hali
            obtain ⟨known, hknown, hknownSame⟩ := hcover other hother
            exact ⟨known, hknown, Binding.same_trans hknownSame hsame⟩)
          hfound
        refine ⟨final, hfinal, fun c hc => ?_, hmentions⟩
        obtain ⟨other, hother, hsame⟩ := hcover c hc
        obtain ⟨last, hlast, hlastSame⟩ := hall other hother
        exact ⟨last, hlast, Binding.same_trans hlastSame hsame⟩
      · next hnew =>
        have hfewer := openEdges_visit hsteps (by simpa using hnew)
        obtain ⟨final, hfinal, hall, hmentions⟩ := @ih _ _ (index.visit b found) hfewer
          (fun c hc i hi hali => by
            rcases List.mem_cons.1 hc with rfl | hc
            · refine ⟨i.binding, ?_, i.binding.same_refl⟩
              simp only [List.mem_append, List.mem_reverse, List.mem_map, List.mem_filter]
              exact .inr (.inl ⟨i, ⟨hi, by simp [hali]⟩, rfl⟩)
            · obtain ⟨other, hother, hsame⟩ := hclosed c hc i hi hali
              refine ⟨other, ?_, hsame⟩
              simp only [List.mem_append, List.mem_cons] at hother ⊢
              grind)
          (fun c hc p s hloc => by
            rw [mentions_visit]
            rcases List.mem_cons.1 hc with rfl | hc
            · exact .inl hloc
            · exact .inr (hfound c hc p s hloc))
        refine ⟨final, hfinal, fun c hc => hall c ?_, hmentions⟩
        simp only [List.mem_append, List.mem_cons] at hc ⊢
        grind

/-- A spread finds only locations of bindings that its agenda reaches. -/
theorem spreadFrom_sound {steps : Nat} {agenda visited : List Binding} {found : Locations}
    {p : Path} {s : Span} (h : (index.spreadFrom steps agenda visited found).Mentions p s) :
    found.Mentions p s ∨
      ∃ a ∈ agenda, ∃ b, index.Reaches a b ∧ index.LocatesAt b p s := by
  induction steps generalizing agenda visited found with
  | zero => exact .inl h
  | succ steps ih =>
    cases agenda with
    | nil => exact .inl h
    | cons b agenda =>
      simp only [spreadFrom] at h
      split at h
      · rcases ih h with hfound | ⟨a, ha, hreach⟩
        · exact .inl hfound
        · exact .inr ⟨a, List.mem_cons_of_mem b ha, hreach⟩
      · rcases ih h with hfound | ⟨a, ha, c, hreach, hloc⟩
        · rw [mentions_visit] at hfound
          rcases hfound with hloc | hfound
          · exact .inr ⟨b, List.mem_cons_self, b, .root, hloc⟩
          · exact .inl hfound
        · rcases List.mem_append.1 ha with ha | ha
          · simp only [List.mem_reverse, List.mem_map, List.mem_filter] at ha
            obtain ⟨i, ⟨hi, hali⟩, rfl⟩ := ha
            have hfirst : index.Reaches b i.binding := .step .root hi (by simpa using hali)
            exact .inr ⟨b, List.mem_cons_self, c, hfirst.trans hreach, hloc⟩
          · exact .inr ⟨a, List.mem_cons_of_mem b ha, c, hreach, hloc⟩

/-! ## The bound on the steps is never met -/

/-- Working off an agenda with no bound on the steps: from the bindings to take up,
those that were visited and the locations found so far, to the locations found in
the end. -/
inductive WorksOff (index : ImportIndex) :
    List Binding → List Binding → Locations → Locations → Prop where
  | done {visited : List Binding} {found : Locations} : index.WorksOff [] visited found found
  | seen {b : Binding} {agenda visited : List Binding} {found last : Locations}
      (known : visited.any (·.same b) = true) (rest : index.WorksOff agenda visited found last) :
      index.WorksOff (b :: agenda) visited found last
  | visit {b : Binding} {agenda visited : List Binding} {found last : Locations}
      (new : visited.any (·.same b) = false)
      (rest : index.WorksOff
        ((((index.importersOf b).filter (!·.aliased)).map Importer.binding).reverse ++ agenda)
        (b :: visited) (index.visit b found) last) :
      index.WorksOff (b :: agenda) visited found last

/-- With enough steps an agenda is worked off to its end. -/
theorem worksOff_spreadFrom {steps : Nat} {agenda visited : List Binding} {found : Locations}
    (hsteps : agenda.length + openEdges visited index.importers ≤ steps) :
    index.WorksOff agenda visited found (index.spreadFrom steps agenda visited found) := by
  induction steps generalizing agenda visited found with
  | zero =>
    obtain rfl : agenda = [] := List.length_eq_zero_iff.1 (by omega)
    exact .done
  | succ steps ih =>
    cases agenda with
    | nil => exact .done
    | cons b agenda =>
      rw [spreadFrom]
      split
      · next hseen =>
        refine .seen hseen (ih ?_)
        simp only [List.length_cons] at hsteps
        omega
      · next hnew =>
        have hnew : visited.any (·.same b) = false := by simpa using hnew
        exact .visit hnew (ih (openEdges_visit hsteps hnew))

/-- A spread works off the agenda that has its root. -/
theorem worksOff_spread (index : ImportIndex) (root : Binding) :
    ∃ last, index.WorksOff [root] [] .empty last ∧ index.spread root = last.withoutEmpty :=
  ⟨_, worksOff_spreadFrom (index.openEdges_le_edgeCount root), rfl⟩

/-- An agenda is worked off in one way. -/
theorem WorksOff.unique {agenda visited : List Binding} {found last last' : Locations}
    (h : index.WorksOff agenda visited found last)
    (h' : index.WorksOff agenda visited found last') : last = last' := by
  induction h with
  | done =>
    cases h'
    rfl
  | seen known _ ih =>
    cases h' with
    | seen _ rest => exact ih rest
    | visit new _ => simp [known] at new
  | visit new _ ih =>
    cases h' with
    | seen known _ => simp [known] at new
    | visit _ rest => exact ih rest

/-- Indexes that have the same modules and imports work off an agenda alike. -/
theorem WorksOff.of_eq {other : ImportIndex} (hmodule : ∀ p, index.module? p = other.module? p)
    (himporters : ∀ b, index.importersOf b = other.importersOf b) {agenda visited : List Binding}
    {found last : Locations} (h : index.WorksOff agenda visited found last) :
    other.WorksOff agenda visited found last := by
  have hvisit : ∀ b found, index.visit b found = other.visit b found := fun b found => by
    rw [ImportIndex.visit, ImportIndex.visit, hmodule, himporters]
  induction h with
  | done => exact .done
  | seen known _ ih => exact .seen known ih
  | visit new _ ih =>
    rw [hvisit, himporters] at ih
    exact .visit new ih

/-- A closed set that has a binding has all that it reaches. -/
theorem Closed.mem_of_reaches {bindings : List Binding} (h : index.Closed bindings)
    {root b : Binding} (hroot : ∃ other ∈ bindings, other.same root = true)
    (hreach : index.Reaches root b) : ∃ other ∈ bindings, other.same b = true := by
  induction hreach with
  | root => exact hroot
  | step _ himported hunaliased ih =>
    obtain ⟨other, hother, hsame⟩ := ih
    exact h other hother _ (importersOf_congr hsame ▸ himported) hunaliased

/-- A spread finds the locations of the bindings that its root reaches, and no
others. -/
theorem mentions_spread {root : Binding} {p : Path} {s : Span} :
    (index.spread root).Mentions p s ↔
      ∃ b, index.Reaches root b ∧ index.LocatesAt b p s := by
  rw [spread, Locations.mentions_withoutEmpty]
  constructor
  · intro h
    rcases spreadFrom_sound h with h | ⟨a, ha, b, hreach, hloc⟩
    · exact absurd h Locations.not_mentions_empty
    · rw [List.mem_singleton.1 ha] at hreach
      exact ⟨b, hreach, hloc⟩
  · rintro ⟨b, hreach, hloc⟩
    obtain ⟨final, hclosed, hall, hmentions⟩ :=
      @spreadFrom_covers index _ _ _ .empty (index.openEdges_le_edgeCount root) (by simp) (by simp)
    obtain ⟨other, hother, hsame⟩ := hclosed.mem_of_reaches (hall root (by simp)) hreach
    exact hmentions other hother p s (locatesAt_congr (Binding.same_symm hsame) hloc)

theorem inOrder_spreadFrom {steps : Nat} {agenda visited : List Binding} {found : Locations}
    (h : found.InOrder) : (index.spreadFrom steps agenda visited found).InOrder := by
  induction steps generalizing agenda visited found with
  | zero => exact h
  | succ steps ih =>
    cases agenda with
    | nil => exact h
    | cons b agenda =>
      simp only [spreadFrom]
      split
      · exact ih h
      · exact ih (inOrder_visit h)

/-- The locations of a spread are listed by module and then by place. -/
theorem inOrder_spread (root : Binding) : (index.spread root).InOrder :=
  (inOrder_spreadFrom Locations.inOrder_empty).withoutEmpty

/-- A module that a spread lists has a location. -/
theorem ne_nil_of_mem_spread {root : Binding} {entry : Path × List Span}
    (h : entry ∈ (index.spread root).entries) : entry.2 ≠ [] := by
  have hempty := (List.mem_filter.1 h).2
  intro hnil
  simp [hnil] at hempty

theorem fst_of_mem_spreadFrom {steps : Nat} {agenda visited : List Binding} {found : Locations}
    {entry : Path × List Span}
    (h : entry ∈ (index.spreadFrom steps agenda visited found).entries) :
    (∃ a ∈ agenda, ∃ b, index.Reaches a b ∧
      (entry.1 = b.module ∧ (index.module? b.module).isSome ∨
        ∃ i ∈ index.importersOf b, i.aliased = true ∧ entry.1 = i.module)) ∨
      ∃ old ∈ found.entries, entry.1 = old.1 := by
  induction steps generalizing agenda visited found with
  | zero => exact .inr ⟨entry, h, rfl⟩
  | succ steps ih =>
    cases agenda with
    | nil => exact .inr ⟨entry, h, rfl⟩
    | cons b agenda =>
      simp only [spreadFrom] at h
      split at h
      · rcases ih h with ⟨a, ha, hreach⟩ | hfound
        · exact .inl ⟨a, List.mem_cons_of_mem b ha, hreach⟩
        · exact .inr hfound
      · rcases ih h with ⟨a, ha, c, hreach, hspelled⟩ | ⟨old, hold, heq⟩
        · rcases List.mem_append.1 ha with ha | ha
          · simp only [List.mem_reverse, List.mem_map, List.mem_filter] at ha
            obtain ⟨i, ⟨hi, hali⟩, rfl⟩ := ha
            have hfirst : index.Reaches b i.binding := .step .root hi (by simpa using hali)
            exact .inl ⟨b, List.mem_cons_self, c, hfirst.trans hreach, hspelled⟩
          · exact .inl ⟨a, List.mem_cons_of_mem b ha, c, hreach, hspelled⟩
        · rcases fst_of_mem_visit hold with ⟨hmodule, hsome⟩ | ⟨i, hi, hali, hmodule⟩ | hfound
          · exact .inl ⟨b, List.mem_cons_self, b, .root, .inl ⟨heq.trans hmodule, hsome⟩⟩
          · exact .inl ⟨b, List.mem_cons_self, b, .root,
              .inr ⟨i, hi, hali, heq.trans hmodule⟩⟩
          · obtain ⟨older, holder, holdeq⟩ := hfound
            exact .inr ⟨older, holder, heq.trans holdeq⟩

/-- The modules that a spread lists are spelled as a reached binding, or as an
aliased import of one, spells them. -/
theorem fst_of_mem_spread {root : Binding} {entry : Path × List Span}
    (h : entry ∈ (index.spread root).entries) :
    ∃ b, index.Reaches root b ∧
      (entry.1 = b.module ∧ (index.module? b.module).isSome ∨
        ∃ i ∈ index.importersOf b, i.aliased = true ∧ entry.1 = i.module) := by
  rcases fst_of_mem_spreadFrom (List.mem_filter.1 h).1 with ⟨a, ha, hreach⟩ | ⟨old, hold, -⟩
  · rw [List.mem_singleton.1 ha] at hreach
    exact hreach
  · cases hold

end ImportIndex

end SymbolAtlas
