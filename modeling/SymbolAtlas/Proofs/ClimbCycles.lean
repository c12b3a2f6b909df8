import SymbolAtlas.Proofs.LinkedIndex
import SymbolAtlas.Proofs.SpreadExact

/-!
# Climbs on cycles

Tables can be put together so that imports lead in a circle, and then a climb ends at the last
binding before the circle closes.  Where that is depends on where the climb began, so that the
bindings of one circle have different roots.  Still they have one spread: a spread goes back
along every step that a climb takes, and around a circle it reaches all of it from each of its
bindings.

## Main Definitions

* `Locations.byComponents`: a listing whose modules are compared by their components.
* `ImportIndex.ClimbsInClass`: climbing and spreading agree on the class of a binding.

## Main Statements

* `ImportIndex.rootBinding_eq_error_iff`: the climbs that find a module missing.
* `ImportIndex.Consistent.roots_share`: all bindings on a climb have roots of one class.
* `climb_in_class`: climbing and spreading agree after any history of the index.
-/

namespace SymbolAtlas

/-! ## Walks of determined steps -/

section Walks

open Relation

variable {α : Type} {r : α → α → Prop} {a b c last : α}

/-- Where each step is determined, a walk from a cycle leads back to it. -/
theorem walk_back_of_cycle (hunique : Relator.RightUnique r) (hcycle : TransGen r a a)
    (h : ReflTransGen r a b) : ReflTransGen r b a := by
  induction h with
  | refl => exact .refl
  | @tail b c _ hstep ih =>
    obtain ⟨next, hnext, hback⟩ := TransGen.head'_iff.1 (TransGen.trans_right ih hcycle)
    rwa [hunique hstep hnext]

/-- Where each step is determined, no walk leads both to a cycle and to an end. -/
theorem not_end_of_cycle (hunique : Relator.RightUnique r) (hcycle : TransGen r c c)
    (hc : ReflTransGen r a c) (hlast : ReflTransGen r a last) : ∃ next, r last next := by
  have hback : ReflTransGen r last c := by
    rcases hc.total_of_right_unique hunique hlast with h | h
    · exact walk_back_of_cycle hunique hcycle h
    · exact h
  obtain ⟨next, hnext, -⟩ := TransGen.head'_iff.1 (TransGen.trans_right hback hcycle)
  exact ⟨next, hnext⟩

end Walks

namespace ImportIndex

open Relation

variable {index : ImportIndex}

/-! ## Cycles -/

/-- The next step does not depend on how a binding is spelled. -/
theorem ClimbsTo.of_same {a b next : Binding} (h : index.ClimbsTo a next)
    (hsame : a.same b = true) : index.ClimbsTo b next := by
  obtain ⟨hmodule, hname⟩ := Binding.same_iff.1 hsame
  rw [climbsTo_iff] at h ⊢
  rwa [← module?_congr hmodule, ← hname]

/-- A step back to a binding that was visited closes a cycle.  The cycle leads back to where
the step was taken, up to its spelling. -/
theorem cycle_of_visited {known last next : Binding}
    (hknown : ReflTransGen index.ClimbsTo known last) (hstep : index.ClimbsTo last next)
    (hsame : known.same next = true) : TransGen index.ClimbsTo next next ∧
      ∃ back, ReflTransGen index.ClimbsTo next back ∧ back.same last = true := by
  rcases hknown.cases_head with rfl | ⟨second, hsecond, hrest⟩
  · exact ⟨.single (hstep.of_same hsame), next, .refl, Binding.same_symm hsame⟩
  · have hround : index.ClimbsTo next second := hsecond.of_same hsame
    refine ⟨.head' hround (hrest.tail hstep), last, .head hround hrest, last.same_refl⟩

theorem not_climbsTo_of_unindexed {b : Binding} (h : index.module? b.module = none)
    (next : Binding) : ¬ index.ClimbsTo b next := by
  intro hnext
  cases (climbStep_eq_error_iff.2 ⟨h, rfl⟩).symm.trans hnext

/-- A climb finds a module missing exactly when imports lead to a binding in that module. -/
theorem rootBinding_eq_error_iff {start : Binding} {p : Path} :
    index.rootBinding start = .error p ↔ ∃ c, ReflTransGen index.ClimbsTo start c ∧
      index.module? c.module = none ∧ p = c.module := by
  have harrives : index.Arrives start (index.rootBinding start) := arrives_rootBinding start
  constructor
  · intro h
    rwa [h] at harrives
  · rintro ⟨c, hc, hunindexed, rfl⟩
    have hstop := not_climbsTo_of_unindexed hunindexed
    cases hroot : index.rootBinding start with
    | error q =>
      rw [hroot] at harrives
      obtain ⟨c', hc', hunindexed', rfl⟩ := harrives
      rw [walk_end_unique climbsTo_rightUnique hc hstop hc' (not_climbsTo_of_unindexed hunindexed')]
    | ok r =>
      rw [hroot] at harrives
      obtain ⟨hr, hstays | ⟨known, next, -, hknown, hnext, hsame⟩⟩ := harrives
      · have hstop' : ∀ next, ¬ index.ClimbsTo r next := by simp [ClimbsTo, hstays]
        obtain rfl := walk_end_unique climbsTo_rightUnique hc hstop hr hstop'
        rw [climbStep_eq_error_iff.2 ⟨hunindexed, rfl⟩] at hstays
        cases hstays
      · obtain ⟨hcycle, -⟩ := cycle_of_visited hknown hnext hsame
        obtain ⟨last, hlast⟩ := not_end_of_cycle climbsTo_rightUnique hcycle (hr.tail hnext) hc
        exact absurd hlast (hstop last)

theorem rootBinding_of_stays {b : Binding} (h : index.climbStep b = .ok none) :
    index.rootBinding b = .ok b :=
  climbs_rootBinding_iff.1 (.stays h)

end ImportIndex

/-! ## One spread for a class -/

theorem SharesName.trans {modules : List Module} {a b c : Binding}
    (hab : SharesName modules a b) (hbc : SharesName modules b c) : SharesName modules a c := by
  induction hbc with
  | root same => exact hab.of_same same
  | step _ indexed imported unaliased source same ih =>
    exact .step ih indexed imported unaliased source same

/-- Two bindings in each other's class are named at the same places. -/
theorem namedAt_iff_of_sharesName {modules : List Module} {a b : Binding}
    (hab : SharesName modules a b) (hba : SharesName modules b a) {p : Path} {span : Span} :
    NamedAt modules a p span ↔ NamedAt modules b p span := by
  have hclass : ∀ c, SharesName modules a c ↔ SharesName modules b c :=
    fun c => ⟨hba.trans, hab.trans⟩
  simp only [NamedAt, hclass]

namespace Locations

/-- The entries of a listing, its modules by their components. -/
def byComponents (l : Locations) : List (List Component × List Span) :=
  l.entries.map fun entry => (entry.1.components, entry.2)

/-- An entry comes before another when its module does. -/
def EntryBefore (a b : List Component × List Span) : Prop :=
  dictionaryBefore Component.before a.1 b.1 = true

variable {l l' : Locations}

/-- A listing without empty modules has each of its modules, with its spans, in every other
listing of the same places. -/
theorem InOrder.mem_byComponents (h : l.InOrder) (hfilled : ∀ entry ∈ l.entries, entry.2 ≠ [])
    (h' : l'.InOrder) (hmentions : ∀ p s, l.Mentions p s ↔ l'.Mentions p s)
    {x : List Component × List Span} (hx : x ∈ l.byComponents) : x ∈ l'.byComponents := by
  obtain ⟨entry, hentry, rfl⟩ := List.mem_map.1 hx
  obtain ⟨s, hs⟩ := List.exists_mem_of_ne_nil _ (hfilled entry hentry)
  obtain ⟨other, hother, hsame, -⟩ := (hmentions entry.1 s).1 ⟨entry, hentry, Path.same_refl _, hs⟩
  have hspans : other.2 = entry.2 := by
    refine eq_of_pairwise_before (h'.2 other hother) (h.2 entry hentry) fun t => ?_
    rw [h'.mem_iff_mentions hother hsame, h.mem_iff_mentions hentry (Path.same_refl _), hmentions]
  exact List.mem_map.2 ⟨other, hother, by rw [Path.same_iff.1 hsame, hspans]⟩

/-- Listings of the same places in order and without empty modules have the same modules with
the same spans, in the same order. -/
theorem InOrder.byComponents_eq (h : l.InOrder) (hfilled : ∀ entry ∈ l.entries, entry.2 ≠ [])
    (h' : l'.InOrder) (hfilled' : ∀ entry ∈ l'.entries, entry.2 ≠ [])
    (hmentions : ∀ p s, l.Mentions p s ↔ l'.Mentions p s) : l.byComponents = l'.byComponents := by
  have horder := linearlyOrders_component.dictionary
  have : Std.Irrefl EntryBefore := ⟨fun a => by simp [EntryBefore, horder.irrefl a.1]⟩
  have : Std.Antisymm EntryBefore :=
    ⟨fun a b hab hba => by simp [EntryBefore, horder.asymm hab] at hba⟩
  have hpairwise : ∀ {l : Locations}, l.InOrder → l.byComponents.Pairwise EntryBefore :=
    fun h => List.pairwise_map.2 h.1
  refine (hpairwise h).eq_of_mem_iff (hpairwise h') fun x => ?_
  exact ⟨h.mem_byComponents hfilled h' hmentions,
    h'.mem_byComponents hfilled' h fun p s => (hmentions p s).symm⟩

end Locations

namespace ImportIndex

open Relation

variable {index : ImportIndex}

/-- A binding shares its name with every binding that it climbs to. -/
theorem Consistent.sharesName_of_climb (h : index.Consistent) {b last : Binding}
    (hclimb : ReflTransGen index.ClimbsTo b last) : SharesName index.modules last b := by
  obtain ⟨back, hreach, hsame⟩ := h.reaches_of_climb hclimb
  exact (h.sharesName_of_reaches hreach).of_same (Binding.same_symm hsame)

/-- Climbs that begin on one climb have roots of one class, also when they go around a cycle
and end at different places. -/
theorem Consistent.roots_share (h : index.Consistent) {b s root : Binding}
    (hroot : index.rootBinding b = .ok root) (hs : ReflTransGen index.ClimbsTo b s) :
    ∃ root', index.rootBinding s = .ok root' ∧ SharesName index.modules root root' ∧
      SharesName index.modules root' root := by
  cases hroot' : index.rootBinding s with
  | error p =>
    obtain ⟨c, hc, hunindexed, -⟩ := rootBinding_eq_error_iff.1 hroot'
    rw [rootBinding_eq_error_iff.2 ⟨c, hs.trans hc, hunindexed, rfl⟩] at hroot
    cases hroot
  | ok root' =>
    refine ⟨root', rfl, ?_⟩
    have harrives : index.Arrives b (index.rootBinding b) := arrives_rootBinding b
    have harrives' : index.Arrives s (index.rootBinding s) := arrives_rootBinding s
    rw [hroot] at harrives
    rw [hroot'] at harrives'
    obtain ⟨hreach, hstays | ⟨known, next, -, hknown, hnext, hsame⟩⟩ := harrives <;>
      obtain ⟨hreach', hstays' | ⟨known', next', -, hknown', hnext', hsame'⟩⟩ := harrives'
    · have hstop : ∀ next, ¬ index.ClimbsTo root next := by simp [ClimbsTo, hstays]
      have hstop' : ∀ next, ¬ index.ClimbsTo root' next := by simp [ClimbsTo, hstays']
      obtain rfl :=
        walk_end_unique climbsTo_rightUnique hreach hstop (hs.trans hreach') hstop'
      exact ⟨.root root.same_refl, .root root.same_refl⟩
    · -- one climb ends and the other goes around a cycle, which cannot be
      obtain ⟨hcycle, -⟩ := cycle_of_visited hknown' hnext' hsame'
      obtain ⟨last, hlast⟩ := not_end_of_cycle climbsTo_rightUnique hcycle
        (hs.trans (hreach'.tail hnext')) hreach
      simp [ClimbsTo, hstays] at hlast
    · obtain ⟨hcycle, -⟩ := cycle_of_visited hknown hnext hsame
      obtain ⟨last, hlast⟩ := not_end_of_cycle climbsTo_rightUnique hcycle
        (hreach.tail hnext) (hs.trans hreach')
      simp [ClimbsTo, hstays'] at hlast
    · -- both go around one cycle, on which each leads to the end of the other
      obtain ⟨hcycle, back, hback, hbackSame⟩ := cycle_of_visited hknown hnext hsame
      obtain ⟨hcycle', back', hback', hbackSame'⟩ := cycle_of_visited hknown' hnext' hsame'
      have hround : ReflTransGen index.ClimbsTo next next' ∧
          ReflTransGen index.ClimbsTo next' next := by
        rcases (hreach.tail hnext).total_of_right_unique climbsTo_rightUnique
          (hs.trans (hreach'.tail hnext')) with hto | hto
        · exact ⟨hto, walk_back_of_cycle climbsTo_rightUnique hcycle hto⟩
        · exact ⟨walk_back_of_cycle climbsTo_rightUnique hcycle' hto, hto⟩
      have hup : SharesName index.modules back' root :=
        h.sharesName_of_climb (.head hnext (hround.1.trans hback'))
      have hup' : SharesName index.modules back root' :=
        h.sharesName_of_climb (.head hnext' (hround.2.trans hback))
      exact ⟨SharesName.trans (.root hbackSame) hup', SharesName.trans (.root hbackSame') hup⟩

/-- Bindings in each other's class have one spread. -/
theorem Consistent.spread_eq_of_sharesName (h : index.Consistent) {a b : Binding}
    (hab : SharesName index.modules a b) (hba : SharesName index.modules b a) :
    (index.spread a).byComponents = (index.spread b).byComponents := by
  have hordered : ∀ root, (index.spread root).InOrder := inOrder_spread
  refine (hordered a).byComponents_eq (fun _ => ne_nil_of_mem_spread) (hordered b)
    (fun _ => ne_nil_of_mem_spread) fun p s => ?_
  rw [h.mentions_spread_iff, h.mentions_spread_iff, namedAt_iff_of_sharesName hab hba]

/-- Climbing from a binding and spreading from where it ends agree on the class of the
binding. -/
structure ClimbsInClass (index : ImportIndex) (b : Binding) : Prop where
  /-- The climb ends, without its bound, in one way. -/
  ends : ∀ result, index.Climbs [] b result ↔ index.rootBinding b = result
  /-- It finds a module missing exactly when unaliased imports lead there. -/
  missing : ∀ p, index.rootBinding b = .error p ↔
    ∃ c, ReflTransGen index.ClimbsTo b c ∧ index.module? c.module = none ∧ p = c.module
  /-- Otherwise it ends at a binding that is no unaliased import, or whose step leads back to
  a binding that it visited. -/
  root : ∀ r, index.rootBinding b = .ok r → ReflTransGen index.ClimbsTo b r ∧
    ((∃ m, index.module? r.module = some m ∧
        ∀ s, m.table.lookup r.name = some (.imported s) → s.aliased = true) ∨
      ∃ known next, ReflTransGen index.ClimbsTo b known ∧ ReflTransGen index.ClimbsTo known r ∧
        index.ClimbsTo r next ∧ known.same next = true)
  /-- The spread from there has all uses of the binding in its module. -/
  uses : ∀ r m, index.rootBinding b = .ok r → index.module? b.module = some m →
    ∀ span ∈ m.table.usesOf b.name, (index.spread r).Mentions b.module span
  /-- The binding that it is an import of has a root too, with the same spread. -/
  source : ∀ r s, index.rootBinding b = .ok r → index.ClimbsTo b s →
    ∃ r', index.rootBinding s = .ok r' ∧
      (index.spread r').byComponents = (index.spread r).byComponents
  /-- A root that is found away from all cycles is its own root. -/
  settled : (∀ c, ReflTransGen index.ClimbsTo b c → ¬ TransGen index.ClimbsTo c c) →
    ∀ r, index.rootBinding b = .ok r → index.rootBinding r = .ok r

end ImportIndex

/-- Climbing and spreading agree on the class of every binding, whatever the history of the
index and whether or not imports lead in circles. -/
theorem climb_in_class (steps : List IndexStep) (b : Binding) :
    (ImportIndex.after steps).ClimbsInClass b := by
  have h := (ImportIndex.consistent_after steps).1
  generalize ImportIndex.after steps = index at h ⊢
  have harrives : ∀ {r}, index.rootBinding b = .ok r → index.Arrives b (.ok r) :=
    fun hr => hr ▸ ImportIndex.arrives_rootBinding b
  refine ⟨fun _ => ImportIndex.climbs_rootBinding_iff,
    fun _ => ImportIndex.rootBinding_eq_error_iff, ?_, ?_, ?_, ?_⟩
  · intro r hr
    obtain ⟨hreach, hend⟩ := harrives hr
    exact ⟨hreach, hend.imp_left ImportIndex.climbStep_eq_none_iff.1⟩
  · intro r m hr hm span hspan
    exact h.mentions_spread_of_rootBinding hr hm hspan
  · intro r s hr hs
    obtain ⟨r', hr', hshare, hshare'⟩ := h.roots_share hr (.single hs)
    exact ⟨r', hr', h.spread_eq_of_sharesName hshare' hshare⟩
  · intro hacyclic r hr
    obtain ⟨hreach, hstays | ⟨known, next, -, hknown, hnext, hsame⟩⟩ := harrives hr
    · exact ImportIndex.rootBinding_of_stays hstays
    · have hcycle := (ImportIndex.cycle_of_visited hknown hnext hsame).1
      exact absurd hcycle (hacyclic next (hreach.tail hnext))

end SymbolAtlas
