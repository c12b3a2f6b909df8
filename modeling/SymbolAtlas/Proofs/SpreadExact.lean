import Mathlib.Data.List.Nodup
import Mathlib.Data.List.Sort
import SymbolAtlas.Proofs.IndexHistory

/-!
# A spread is exact

What a spread lists can be said without the agenda that it works off: from the
tables of the indexed modules alone.  The bindings that share a name with the root
are the least class that has the root and, with a binding, every unaliased import of
it.  The locations of the spread are the uses of these bindings in their own modules
and the names that aliased imports of them mention.  As the class does not depend on
the order of the modules, neither does the spread, when it is read as a map from
modules to places.

## Main Definitions

* `Locations.spansAt?`: a listing, read as a map.
* `SharesName`: the class of bindings that share a name with a binding.
* `NamedAt`: where the bindings of the class are named.
* `Locations.ListsExactly`, `SpreadExact`: what a spread amounts to.

## Main Statements

* `Locations.InOrder.spansAt?_eq_some_iff`: a listing in order, as a map.
* `ImportIndex.Consistent.mentions_spread_iff`: a spread finds where the class is named.
* `spread_exact`: a spread is exact after any history of the index.
-/

namespace SymbolAtlas

/-! ## Listings as maps -/

/-- Spans in order are determined by which spans they are. -/
theorem eq_of_pairwise_before {spans others : List Span}
    (h : spans.Pairwise (Span.before · · = true)) (h' : others.Pairwise (Span.before · · = true))
    (hmem : ∀ s, s ∈ spans ↔ s ∈ others) : spans = others := by
  have : Std.Irrefl fun a b : Span => Span.before a b = true :=
    ⟨fun a => by simp [linearlyOrders_span.irrefl a]⟩
  have : Std.Antisymm fun a b : Span => Span.before a b = true :=
    ⟨fun a b hab hba => by simp [linearlyOrders_span.asymm hab] at hba⟩
  exact h.eq_of_mem_iff h' hmem

namespace Locations

/-- The spans that are listed under a module, in whichever spelling. -/
def spansAt? (l : Locations) (p : Path) : Option (List Span) :=
  (l.entries.find? (·.1.same p)).map (·.2)

variable {l : Locations}

/-- A module is listed once. -/
theorem InOrder.eq_of_same (h : l.InOrder) {entry other : Path × List Span}
    (hentry : entry ∈ l.entries) (hother : other ∈ l.entries)
    (hsame : entry.1.same other.1 = true) : entry = other := by
  have hnodup : (l.entries.map (·.1.components)).Nodup := by
    refine List.pairwise_map.2 (h.1.imp fun {a b} hbefore heq => ?_)
    rw [(Path.same_iff_neither_before.1 (Path.same_iff.2 heq)).1] at hbefore
    cases hbefore
  exact List.inj_on_of_nodup_map hnodup hentry hother (Path.same_iff.1 hsame)

/-- What is listed under a module is what is listed under any spelling of it. -/
theorem InOrder.mem_iff_mentions (h : l.InOrder) {entry : Path × List Span}
    (hentry : entry ∈ l.entries) {p : Path} (hsame : entry.1.same p = true) {s : Span} :
    s ∈ entry.2 ↔ l.Mentions p s := by
  refine ⟨fun hs => ⟨entry, hentry, hsame, hs⟩, ?_⟩
  rintro ⟨other, hother, hother', hs⟩
  rwa [h.eq_of_same hentry hother (Path.same_trans hsame (Path.same_symm hother'))]

/-- A listing in order and without empty modules, as a map. -/
theorem InOrder.spansAt?_eq_some_iff (h : l.InOrder) (hfilled : ∀ entry ∈ l.entries, entry.2 ≠ [])
    {p : Path} {spans : List Span} :
    l.spansAt? p = some spans ↔
      spans ≠ [] ∧ spans.Pairwise (Span.before · · = true) ∧ ∀ s, s ∈ spans ↔ l.Mentions p s := by
  constructor
  · intro hspans
    obtain ⟨entry, hfind, rfl⟩ := Option.map_eq_some_iff.1 hspans
    have hentry := List.mem_of_find?_eq_some hfind
    have hsame : entry.1.same p = true := by simpa using List.find?_some hfind
    exact ⟨hfilled entry hentry, h.2 entry hentry, fun s => h.mem_iff_mentions hentry hsame⟩
  · rintro ⟨hne, hordered, hmem⟩
    obtain ⟨s, hs⟩ := List.exists_mem_of_ne_nil spans hne
    obtain ⟨entry, hentry, hsame, -⟩ := (hmem s).1 hs
    cases hfind : l.entries.find? (·.1.same p) with
    | none => exact absurd hsame (List.find?_eq_none.1 hfind entry hentry)
    | some found =>
      have hfound := List.mem_of_find?_eq_some hfind
      have hfoundSame : found.1.same p = true := by simpa using List.find?_some hfind
      have hspans : found.2 = spans := by
        refine eq_of_pairwise_before (h.2 found hfound) hordered fun t => ?_
        rw [h.mem_iff_mentions hfound hfoundSame, hmem]
      rw [spansAt?, hfind, Option.map_some, hspans]

/-- A listing is exact: modules come in path order, so that each has one entry, and
under a module there are exactly its locations, in order and without repetition.  A
module with no location has no entry. -/
structure ListsExactly (Located : Path → Span → Prop) (l : Locations) : Prop where
  modules_ordered : l.entries.Pairwise fun a b => a.1.before b.1 = true
  spansAt?_eq_some_iff : ∀ p spans, l.spansAt? p = some spans ↔
    spans ≠ [] ∧ spans.Pairwise (Span.before · · = true) ∧ ∀ s, s ∈ spans ↔ Located p s

end Locations

/-! ## The class of a binding -/

/-- The bindings that share their name with a binding, as some modules have it: the
binding itself, every unaliased import of it, every unaliased import of these, and so
on.  Bindings that differ in spelling only are taken for one. -/
inductive SharesName (modules : List Module) (root : Binding) : Binding → Prop where
  | root {b : Binding} (same : b.same root = true) : SharesName modules root b
  | step {b next : Binding} {m : Module} {s : ImportedSymbol} (member : SharesName modules root b)
      (indexed : m ∈ modules) (imported : s ∈ m.table.imported) (unaliased : s.aliased = false)
      (source : s.sourceBinding.same b = true) (same : next.same ⟨m.path, s.name⟩ = true) :
      SharesName modules root next

/-- A place in one of some modules names a binding of the class: it is a use of the
binding in its own module, or what an aliased import of the binding mentions. -/
def NamedAt (modules : List Module) (root : Binding) (p : Path) (span : Span) : Prop :=
  ∃ m ∈ modules, m.path.same p = true ∧
    ((∃ name, SharesName modules root ⟨m.path, name⟩ ∧ span ∈ m.table.usesOf name) ∨
      ∃ s ∈ m.table.imported, s.aliased = true ∧ SharesName modules root s.sourceBinding ∧
        span = s.source.span)

section Classes

variable {modules others : List Module} {root b : Binding}

theorem SharesName.of_same (h : SharesName modules root b) {b' : Binding}
    (hsame : b'.same b = true) : SharesName modules root b' := by
  cases h with
  | root same => exact .root (Binding.same_trans hsame same)
  | step member indexed imported unaliased source same =>
    exact .step member indexed imported unaliased source (Binding.same_trans hsame same)

/-- The class depends on which modules there are, not on their order. -/
theorem SharesName.mono (h : SharesName modules root b) (hsub : ∀ m ∈ modules, m ∈ others) :
    SharesName others root b := by
  induction h with
  | root same => exact .root same
  | step _ indexed imported unaliased source same ih =>
    exact .step ih (hsub _ indexed) imported unaliased source same

theorem NamedAt.mono {p : Path} {span : Span} (h : NamedAt modules root p span)
    (hsub : ∀ m ∈ modules, m ∈ others) : NamedAt others root p span := by
  obtain ⟨m, hm, hsame, ⟨name, hclass, huse⟩ | ⟨s, hs, haliased, hclass, hspan⟩⟩ := h
  · exact ⟨m, hsub m hm, hsame, .inl ⟨name, hclass.mono hsub, huse⟩⟩
  · exact ⟨m, hsub m hm, hsame, .inr ⟨s, hs, haliased, hclass.mono hsub, hspan⟩⟩

end Classes

namespace ImportIndex

variable {index : ImportIndex} {root b : Binding}

theorem Consistent.mem_importersOf_iff (h : index.Consistent) {i : Importer} :
    i ∈ index.importersOf b ↔ ∃ m ∈ index.modules, ∃ s ∈ m.table.imported,
      s.sourceBinding.same b = true ∧ i = s.importer m.path := by
  rw [h.importersOf_eq, mem_importsIn]

theorem Consistent.sharesName_of_reaches (h : index.Consistent) (hreach : index.Reaches root b) :
    SharesName index.modules root b := by
  induction hreach with
  | root => exact .root root.same_refl
  | step _ himported hunaliased ih =>
    obtain ⟨m, hm, s, hs, hsource, rfl⟩ := h.mem_importersOf_iff.1 himported
    exact .step ih hm hs hunaliased hsource (Binding.same_refl _)

/-- The spread of a binding reaches every binding of its class in some spelling. -/
theorem Consistent.exists_reaches (h : index.Consistent)
    (hclass : SharesName index.modules root b) :
    ∃ b', index.Reaches root b' ∧ b'.same b = true := by
  induction hclass with
  | root same => exact ⟨root, .root, Binding.same_symm same⟩
  | @step b next m s _ indexed imported unaliased source same ih =>
    obtain ⟨b', hreach, hsame⟩ := ih
    have hsource : s.sourceBinding.same b' = true :=
      Binding.same_trans source (Binding.same_symm hsame)
    have himported := h.mem_importersOf_iff.2 ⟨m, indexed, s, imported, hsource, rfl⟩
    exact ⟨_, .step hreach himported unaliased, Binding.same_symm same⟩

/-- A spread finds exactly the places that name a binding of the class. -/
theorem Consistent.mentions_spread_iff (h : index.Consistent) {p : Path} {span : Span} :
    (index.spread root).Mentions p span ↔ NamedAt index.modules root p span := by
  rw [mentions_spread]
  constructor
  · rintro ⟨b, hreach, ⟨hsame, m, hm, huse⟩ | ⟨i, hi, haliased, hsame, rfl⟩⟩
    · obtain ⟨hindexed, hpath⟩ := h.module?_eq_some_iff.1 hm
      have hclass : SharesName index.modules root ⟨m.path, b.name⟩ :=
        (h.sharesName_of_reaches hreach).of_same (Binding.same_iff.2 ⟨hpath, rfl⟩)
      exact ⟨m, hindexed, Path.same_trans hpath hsame, .inl ⟨b.name, hclass, huse⟩⟩
    · obtain ⟨m, hm, s, hs, hsource, rfl⟩ := h.mem_importersOf_iff.1 hi
      have hclass := (h.sharesName_of_reaches hreach).of_same hsource
      exact ⟨m, hm, hsame, .inr ⟨s, hs, haliased, hclass, rfl⟩⟩
  · rintro ⟨m, hm, hsame, ⟨name, hclass, huse⟩ | ⟨s, hs, haliased, hclass, rfl⟩⟩
    · obtain ⟨b, hreach, hb⟩ := h.exists_reaches hclass
      have hfound := h.module?_eq_some_iff.2 ⟨hm, m.path.same_refl⟩
      exact ⟨b, hreach, locatesAt_congr (Binding.same_symm hb) (.inl ⟨hsame, m, hfound, huse⟩)⟩
    · obtain ⟨b, hreach, hb⟩ := h.exists_reaches hclass
      have himported := h.mem_importersOf_iff.2 ⟨m, hm, s, hs, Binding.same_symm hb, rfl⟩
      exact ⟨b, hreach, .inr ⟨_, himported, haliased, hsame, rfl⟩⟩

theorem Consistent.listsExactly_spread (h : index.Consistent) (root : Binding) :
    (index.spread root).ListsExactly (NamedAt index.modules root) := by
  have hordered : (index.spread root).InOrder := inOrder_spread root
  refine ⟨hordered.1, fun p spans => ?_⟩
  rw [hordered.spansAt?_eq_some_iff fun _ => ne_nil_of_mem_spread]
  simp only [h.mentions_spread_iff]

end ImportIndex

/-! ## Spreads after any history -/

/-- What the spread of a binding amounts to in an index with some history. -/
structure SpreadExact (steps : List IndexStep) (root : Binding) : Prop where
  /-- Its agenda is worked off to the end. -/
  ends : ∃ last, (ImportIndex.after steps).WorksOff [root] [] .empty last ∧
    (ImportIndex.after steps).spread root = last.withoutEmpty
  /-- It lists the places that name a binding of the class, and no others. -/
  exact : ((ImportIndex.after steps).spread root).ListsExactly
    (NamedAt (ImportIndex.after steps).modules root)
  /-- With another history that leaves the same modules, in whatever order, it has the
  same places under each module. -/
  any_order : ∀ other : List IndexStep,
    (∀ m, m ∈ (ImportIndex.after other).modules ↔ m ∈ (ImportIndex.after steps).modules) →
    ∀ p, ((ImportIndex.after other).spread root).spansAt? p =
      ((ImportIndex.after steps).spread root).spansAt? p

/-- A spread is exact, whatever the history of the index. -/
theorem spread_exact (steps : List IndexStep) (root : Binding) : SpreadExact steps root := by
  have hexact : ∀ history, ((ImportIndex.after history).spread root).ListsExactly
      (NamedAt (ImportIndex.after history).modules root) := fun history =>
    (ImportIndex.consistent_after history).1.listsExactly_spread root
  refine ⟨(ImportIndex.after steps).worksOff_spread root, hexact steps, fun other hmem p => ?_⟩
  have hnamed : ∀ span, NamedAt (ImportIndex.after other).modules root p span ↔
      NamedAt (ImportIndex.after steps).modules root p span := fun span =>
    ⟨fun h => h.mono fun m => (hmem m).1, fun h => h.mono fun m => (hmem m).2⟩
  ext spans
  rw [(hexact other).spansAt?_eq_some_iff, (hexact steps).spansAt?_eq_some_iff]
  simp only [hnamed]

end SymbolAtlas
