import Mathlib.Data.List.Perm.Subperm
import Mathlib.Logic.Relation
import SymbolAtlas.Proofs.Importers
import SymbolAtlas.Proofs.Tables

/-!
# Where a climb ends

A climb passes from import to import.  It never meets its bound on the number of
steps, since it passes each import of the index at most once.  When no chain of
imports leads back to a binding on it, the climb follows the chain to its end: a
binding from which there is no step to take, or a module that is not indexed.

## Main Definitions

* `ImportIndex.ClimbsTo`: one step of a climb.
* `ImportIndex.Climbs`: a climb with no bound on its steps.
* `ImportIndex.Arrives`: where a climb comes to its result.

## Main Statements

* `walk_end_unique`: walks of determined steps have one end.
* `ImportIndex.length_le_importCount`: different imports are no more than counted.
* `ImportIndex.climbs_rootBinding_iff`: the bound on the steps of a climb is never met.
* `ImportIndex.arrives_rootBinding`: where a climb comes to its result.
* `ImportIndex.rootBinding_ends`: where a climb ends that meets no cycle.
-/

namespace SymbolAtlas

/-- Where each step is determined, a walk to where there is no step to take has one
end. -/
theorem walk_end_unique {α : Type} {r : α → α → Prop} (hunique : Relator.RightUnique r)
    {a last last' : α} (h : Relation.ReflTransGen r a last) (hend : ∀ next, ¬ r last next)
    (h' : Relation.ReflTransGen r a last') (hend' : ∀ next, ¬ r last' next) : last = last' := by
  rcases h.total_of_right_unique hunique h' with hbetween | hbetween
  · rcases hbetween.cases_head with heq | ⟨next, hnext, -⟩
    · exact heq
    · exact absurd hnext (hend next)
  · rcases hbetween.cases_head with heq | ⟨next, hnext, -⟩
    · exact heq.symm
    · exact absurd hnext (hend' next)

namespace ImportIndex

/-- One step of a climb leads from a binding to another. -/
def ClimbsTo (index : ImportIndex) (b next : Binding) : Prop :=
  index.climbStep b = .ok (some next)

variable {index : ImportIndex}

/-- What a step of a climb passes: an unaliased import in an indexed module. -/
theorem climbsTo_iff {b next : Binding} :
    index.ClimbsTo b next ↔ ∃ m s, index.module? b.module = some m ∧
      m.table.lookup b.name = some (.imported s) ∧ s.aliased = false ∧ next = s.sourceBinding := by
  unfold ClimbsTo climbStep
  cases hm : index.module? b.module with
  | none => simp
  | some m =>
    cases hlookup : m.table.lookup b.name with
    | none => simp [hlookup]
    | some symbol =>
      cases symbol with
      | declared s => simp [hlookup]
      | imported s =>
        simp only [hlookup, Except.ok.injEq, Option.some.injEq]
        constructor
        · intro h
          split at h
          · cases h
          · next haliased =>
            exact ⟨m, s, rfl, hlookup ▸ rfl, by simpa using haliased, (Option.some.inj h).symm⟩
        · rintro ⟨_, _, rfl, hs, haliased, rfl⟩
          obtain rfl := Symbol.imported.inj (Option.some.inj (hlookup.symm.trans hs))
          simp [haliased]

theorem climbsTo_rightUnique : Relator.RightUnique index.ClimbsTo :=
  fun _ _ _ h h' => Option.some.inj (Except.ok.inj (h.symm.trans h'))

theorem climbStep_eq_error_iff {b : Binding} {path : Path} :
    index.climbStep b = .error path ↔ index.module? b.module = none ∧ path = b.module := by
  unfold climbStep
  cases hm : index.module? b.module with
  | none => simp [eq_comm]
  | some m =>
    cases hlookup : m.table.lookup b.name with
    | none => simp [hlookup]
    | some symbol => cases symbol <;> simp [hlookup]

/-- There is no step to take from a binding of an indexed module that is no
unaliased import. -/
theorem climbStep_eq_none_iff {b : Binding} :
    index.climbStep b = .ok none ↔ ∃ m, index.module? b.module = some m ∧
      ∀ s, m.table.lookup b.name = some (.imported s) → s.aliased = true := by
  unfold climbStep
  cases hm : index.module? b.module with
  | none => simp
  | some m =>
    cases hlookup : m.table.lookup b.name with
    | none => simp [hlookup]
    | some symbol => cases symbol <;> simp [hlookup]

/-! ## Counting imports -/

/-- The imports of an index, by module and name. -/
def importKeys (index : ImportIndex) : List (List Component × String) :=
  index.modules.flatMap fun m => m.table.imported.map fun s => (m.path.components, s.name)

theorem length_importKeys (index : ImportIndex) : index.importKeys.length = index.importCount := by
  simp [importKeys, importCount, List.length_flatMap]

theorem mem_importKeys_of_climbsTo {b next : Binding} (h : index.ClimbsTo b next) :
    (b.module.components, b.name) ∈ index.importKeys := by
  obtain ⟨m, s, hm, hlookup, -, -⟩ := climbsTo_iff.1 h
  have hsame : m.path.same b.module = true := by simpa using List.find?_some hm
  obtain ⟨hname, hsymbol⟩ := SymbolTable.lookup_eq_some hlookup
  have hs : s ∈ m.table.imported := by
    rcases hsymbol with ⟨d, -, heq⟩ | ⟨s', hs', heq⟩
    · cases heq
    · rw [Symbol.imported.inj heq]
      exact hs'
  refine List.mem_flatMap.2 ⟨m, List.mem_of_find?_eq_some hm, List.mem_map.2 ⟨s, hs, ?_⟩⟩
  rw [← Path.same_iff.1 hsame, ← hname]
  rfl

/-- Different bindings from which there is a step to take are no more than the
index has imports. -/
theorem length_le_importCount {visited : List Binding}
    (hdistinct : visited.Pairwise fun a b => a.same b = false)
    (hstep : ∀ b ∈ visited, ∃ next, index.ClimbsTo b next) :
    visited.length ≤ index.importCount := by
  have hnodup : (visited.map fun b => (b.module.components, b.name)).Nodup := by
    refine List.pairwise_map.2 (hdistinct.imp fun {a b} hab heq => ?_)
    have hsame : a.same b = true :=
      Binding.same_iff.2 ⟨Path.same_iff.2 (congrArg Prod.fst heq), congrArg Prod.snd heq⟩
    rw [hsame] at hab
    cases hab
  have hsubset : (visited.map fun b => (b.module.components, b.name)) ⊆ index.importKeys := by
    intro key hkey
    obtain ⟨b, hb, rfl⟩ := List.mem_map.1 hkey
    obtain ⟨next, hnext⟩ := hstep b hb
    exact mem_importKeys_of_climbsTo hnext
  have hlength := (hnodup.subperm hsubset).length_le
  rwa [List.length_map, length_importKeys] at hlength

/-! ## Climbing without a bound -/

/-- A climb with no bound on its steps: when it has visited some bindings and stands at
`current`, it comes to a result. -/
inductive Climbs (index : ImportIndex) :
    List Binding → Binding → Except Path Binding → Prop where
  | missing {visited : List Binding} {current : Binding}
      (unindexed : index.module? current.module = none) :
      index.Climbs visited current (.error current.module)
  | stays {visited : List Binding} {current : Binding}
      (stop : index.climbStep current = .ok none) : index.Climbs visited current (.ok current)
  | closes {visited : List Binding} {current next known : Binding}
      (step : index.ClimbsTo current next) (visited_known : known ∈ current :: visited)
      (same : known.same next = true) : index.Climbs visited current (.ok current)
  | goesOn {visited : List Binding} {current next : Binding} {result : Except Path Binding}
      (step : index.ClimbsTo current next)
      (new : ∀ known ∈ current :: visited, known.same next = false)
      (others : index.Climbs (current :: visited) next result) :
      index.Climbs visited current result

/-- With enough steps, a bounded climb comes to the result of the climb without a bound. -/
theorem Climbs.exists_steps {visited : List Binding} {current : Binding}
    {result : Except Path Binding} (h : index.Climbs visited current result) :
    ∃ enough, ∀ more, index.climb (enough + more) visited current = result := by
  induction h with
  | missing unindexed =>
    refine ⟨1, fun more => ?_⟩
    rw [Nat.add_comm, climb, climbStep_eq_error_iff.2 ⟨unindexed, rfl⟩]
  | stays stop =>
    refine ⟨1, fun more => ?_⟩
    rw [Nat.add_comm, climb, stop]
  | closes step visited_known same =>
    refine ⟨1, fun more => ?_⟩
    rw [Nat.add_comm, climb, step]
    exact if_pos (List.any_eq_true.2 ⟨_, visited_known, same⟩)
  | goesOn step new _ ih =>
    obtain ⟨enough, henough⟩ := ih
    refine ⟨enough + 1, fun more => ?_⟩
    rw [Nat.add_right_comm, climb, step]
    dsimp only
    rw [if_neg (by simpa using new), henough]

/-- A bounded climb goes on as long as the climb without a bound does: different bindings were
visited, and the index has no more imports than there are steps left. -/
theorem climbs_climb {steps : Nat} {visited : List Binding} {current : Binding}
    (hdistinct : (current :: visited).Pairwise fun a b => a.same b = false)
    (hstep : ∀ v ∈ visited, ∃ next, index.ClimbsTo v next)
    (hcount : index.importCount < visited.length + steps) :
    index.Climbs visited current (index.climb steps visited current) := by
  induction steps generalizing visited current with
  | zero =>
    have := length_le_importCount (List.pairwise_cons.1 hdistinct).2 hstep
    omega
  | succ steps ih =>
    rw [climb]
    cases hcurrent : index.climbStep current with
    | error missing =>
      obtain ⟨hunindexed, rfl⟩ := climbStep_eq_error_iff.1 hcurrent
      exact .missing hunindexed
    | ok next? =>
      cases next? with
      | none => exact .stays hcurrent
      | some next =>
        dsimp only
        split
        · next hseen =>
          obtain ⟨known, hknown, hsame⟩ := List.any_eq_true.1 hseen
          exact .closes hcurrent hknown hsame
        · next hseen =>
          have hnew : ∀ known ∈ current :: visited, known.same next = false := by
            simpa using hseen
          refine .goesOn hcurrent hnew (ih (List.pairwise_cons.2 ⟨fun v hv => ?_, hdistinct⟩)
            (List.forall_mem_cons.2 ⟨⟨next, hcurrent⟩, hstep⟩) ?_)
          · rw [← Bool.not_eq_true]
            intro hsame
            have hnext := hnew v hv
            rw [Binding.same_symm hsame] at hnext
            cases hnext
          · rw [List.length_cons]
            omega

/-- The bound on the steps of a climb is never met: the climb without a bound has one result,
and the bounded one comes to it. -/
theorem climbs_rootBinding_iff {start : Binding} {result : Except Path Binding} :
    index.Climbs [] start result ↔ index.rootBinding start = result := by
  have hroot : index.Climbs [] start (index.rootBinding start) :=
    climbs_climb (List.pairwise_singleton _ _) nofun (by simp)
  constructor
  · intro h
    obtain ⟨enough, henough⟩ := hroot.exists_steps
    obtain ⟨enough', henough'⟩ := h.exists_steps
    rw [← henough enough', ← henough' enough, Nat.add_comm]
  · rintro rfl
    exact hroot

/-! ## Where a climb comes to its result -/

/-- Where the climb from a binding comes to its result: at a module that is not indexed, at a
binding from which there is no step to take, or at a binding whose step leads to one that was
visited. -/
def Arrives (index : ImportIndex) (start : Binding) : Except Path Binding → Prop
  | .error p => ∃ c, Relation.ReflTransGen index.ClimbsTo start c ∧ index.module? c.module = none ∧
      p = c.module
  | .ok r => Relation.ReflTransGen index.ClimbsTo start r ∧ (index.climbStep r = .ok none ∨
      ∃ known next, Relation.ReflTransGen index.ClimbsTo start known ∧
        Relation.ReflTransGen index.ClimbsTo known r ∧ index.ClimbsTo r next ∧
          known.same next = true)

theorem Climbs.arrives {start current : Binding} {visited : List Binding}
    {result : Except Path Binding} (h : index.Climbs visited current result)
    (hcurrent : Relation.ReflTransGen index.ClimbsTo start current)
    (hvisited : ∀ v ∈ visited, Relation.ReflTransGen index.ClimbsTo start v ∧
      Relation.ReflTransGen index.ClimbsTo v current) : index.Arrives start result := by
  induction h with
  | missing unindexed => exact ⟨_, hcurrent, unindexed, rfl⟩
  | stays stop => exact ⟨hcurrent, .inl stop⟩
  | @closes visited current next known step visited_known same =>
    have hknown : Relation.ReflTransGen index.ClimbsTo start known ∧
        Relation.ReflTransGen index.ClimbsTo known current := by
      rcases List.mem_cons.1 visited_known with rfl | hknown
      · exact ⟨hcurrent, .refl⟩
      · exact hvisited known hknown
    exact ⟨hcurrent, .inr ⟨known, next, hknown.1, hknown.2, step, same⟩⟩
  | goesOn step _ _ ih =>
    refine ih (hcurrent.tail step) (List.forall_mem_cons.2 ⟨⟨hcurrent, .single step⟩, ?_⟩)
    exact fun v hv => ⟨(hvisited v hv).1, (hvisited v hv).2.tail step⟩

theorem arrives_rootBinding (start : Binding) :
    index.Arrives start (index.rootBinding start) :=
  (climbs_rootBinding_iff.2 rfl).arrives .refl nofun

/-! ## Climbs that meet no cycle -/

/-- The end of a climb from a binding, and what the climb gives there. -/
def EndsAt (index : ImportIndex) (start b : Binding) (result : Except Path Binding) : Prop :=
  Relation.ReflTransGen index.ClimbsTo start b ∧
    (index.climbStep b = .ok none ∧ result = .ok b ∨
      index.climbStep b = .error b.module ∧ result = .error b.module)

/-- A climb that meets no cycle ends where there is no step to take, or at a
module that is not indexed. -/
theorem rootBinding_ends {start : Binding}
    (hacyclic : ∀ {a b}, Relation.ReflTransGen index.ClimbsTo start a →
      Relation.TransGen index.ClimbsTo a b → a.same b = false) :
    ∃ b, index.EndsAt start b (index.rootBinding start) := by
  have harrives : index.Arrives start (index.rootBinding start) := arrives_rootBinding start
  cases hroot : index.rootBinding start with
  | error p =>
    rw [hroot] at harrives
    obtain ⟨c, hc, hunindexed, rfl⟩ := harrives
    exact ⟨c, hc, .inr ⟨climbStep_eq_error_iff.2 ⟨hunindexed, rfl⟩, rfl⟩⟩
  | ok r =>
    rw [hroot] at harrives
    obtain ⟨hr, hstays | ⟨known, next, hstart, hknown, hnext, hsame⟩⟩ := harrives
    · exact ⟨r, hr, .inl ⟨hstays, rfl⟩⟩
    · rw [hacyclic hstart (Relation.TransGen.tail' hknown hnext)] at hsame
      cases hsame

end ImportIndex

end SymbolAtlas
