import SymbolAtlas.Locations

/-!
# Orders and sorted lists

Names, components and spans are linearly ordered, and so are the words over a
linearly ordered alphabet.  Paths are ordered by their components, so two paths
neither of which comes before the other are spellings of one path.  Sorted
insertion keeps lists in these orders, and the locations of a walk are therefore
listed by module and then by place, without repetition.

## Main Statements

* `LinearlyOrders.dictionary`: the dictionary order is linear.
* `Path.same_iff_neither_before`: the order of paths decides all but spelling.
* `sorted_of_pairwise`: sorting moves nothing in a list that is in order.
* `alterEntry_of_behind`: a module behind all others is given the last entry.
* `Locations.InOrder`, kept by `Locations.add` and `Locations.withoutEmpty`.
* `Locations.mentions_add`: what is entered is found, and nothing else.
-/

namespace SymbolAtlas

/-! ## Linear orders -/

/-- A strict order in which any two different elements are comparable. -/
structure LinearlyOrders {α : Type} (before : α → α → Bool) : Prop where
  irrefl : ∀ a, before a a = false
  trans : ∀ {a b c}, before a b = true → before b c = true → before a c = true
  eq_of_neither : ∀ {a b}, before a b = false → before b a = false → a = b

namespace LinearlyOrders

variable {α β : Type} {before : α → α → Bool}

theorem asymm (h : LinearlyOrders before) {a b : α} (hab : before a b = true) :
    before b a = false := by
  rw [← Bool.not_eq_true]
  intro hba
  have := h.trans hab hba
  rw [h.irrefl] at this
  cases this

/-- The order of elements by a key that tells them apart. -/
theorem onKey (h : LinearlyOrders before) (key : β → α) (hkey : ∀ {a b}, key a = key b → a = b) :
    LinearlyOrders fun a b => before (key a) (key b) where
  irrefl a := h.irrefl (key a)
  trans hab hbc := h.trans hab hbc
  eq_of_neither hab hba := hkey (h.eq_of_neither hab hba)

/-- At their first letters two words are decided by the order of the letters, or
the letters are equal and the rest decides. -/
theorem dictionaryBefore_cons (h : LinearlyOrders before) {a b : α} {as bs : List α} :
    dictionaryBefore before (a :: as) (b :: bs) = true ↔
      before a b = true ∨ a = b ∧ dictionaryBefore before as bs = true := by
  simp only [dictionaryBefore, Bool.or_eq_true, Bool.and_eq_true, Bool.not_eq_true']
  constructor
  · rintro (hab | ⟨hba, hrest⟩)
    · exact .inl hab
    · cases hab : before a b with
      | true => exact .inl rfl
      | false => exact .inr ⟨h.eq_of_neither hab hba, hrest⟩
  · rintro (hab | ⟨rfl, hrest⟩)
    · exact .inl hab
    · exact .inr ⟨h.irrefl a, hrest⟩

theorem dictionaryBefore_trans (h : LinearlyOrders before) {as bs cs : List α}
    (hab : dictionaryBefore before as bs = true) (hbc : dictionaryBefore before bs cs = true) :
    dictionaryBefore before as cs = true := by
  induction as generalizing bs cs with
  | nil =>
    cases cs with
    | nil => simp [dictionaryBefore] at hbc
    | cons c cs => rfl
  | cons a as ih =>
    cases bs with
    | nil => simp [dictionaryBefore] at hab
    | cons b bs =>
      cases cs with
      | nil => simp [dictionaryBefore] at hbc
      | cons c cs =>
        rw [h.dictionaryBefore_cons] at hab hbc ⊢
        rcases hab with hab | ⟨rfl, hab⟩
        · rcases hbc with hbc | ⟨rfl, -⟩
          · exact .inl (h.trans hab hbc)
          · exact .inl hab
        · rcases hbc with hbc | ⟨rfl, hbc⟩
          · exact .inl hbc
          · exact .inr ⟨rfl, ih hab hbc⟩

theorem eq_of_neither_dictionaryBefore (h : LinearlyOrders before) {as bs : List α}
    (hab : dictionaryBefore before as bs = false) (hba : dictionaryBefore before bs as = false) :
    as = bs := by
  induction as generalizing bs with
  | nil =>
    cases bs with
    | nil => rfl
    | cons b bs => simp [dictionaryBefore] at hab
  | cons a as ih =>
    cases bs with
    | nil => simp [dictionaryBefore] at hba
    | cons b bs =>
      rw [← Bool.not_eq_true, h.dictionaryBefore_cons, not_or, Bool.not_eq_true] at hab hba
      obtain rfl : a = b := h.eq_of_neither hab.1 hba.1
      have hrest : as = bs := by
        refine ih ?_ ?_
        · rw [← Bool.not_eq_true]
          exact fun hlt => hab.2 ⟨rfl, hlt⟩
        · rw [← Bool.not_eq_true]
          exact fun hlt => hba.2 ⟨rfl, hlt⟩
      rw [hrest]

/-- Words over a linearly ordered alphabet are linearly ordered. -/
theorem dictionary (h : LinearlyOrders before) : LinearlyOrders (dictionaryBefore before) where
  irrefl as := by
    induction as with
    | nil => rfl
    | cons a as ih => simp [dictionaryBefore, h.irrefl, ih]
  trans := h.dictionaryBefore_trans
  eq_of_neither := h.eq_of_neither_dictionaryBefore

end LinearlyOrders

theorem linearlyOrders_charBefore : LinearlyOrders charBefore where
  irrefl a := by simp [charBefore]
  trans := by
    intro a b c hab hbc
    simp only [charBefore, decide_eq_true_eq] at hab hbc ⊢
    omega
  eq_of_neither := by
    intro a b hab hba
    simp only [charBefore, decide_eq_false_iff_not] at hab hba
    exact Char.toNat_inj.1 (by omega)

theorem linearlyOrders_nameBefore : LinearlyOrders nameBefore :=
  linearlyOrders_charBefore.dictionary.onKey String.toList String.toList_inj.1

theorem linearlyOrders_component : LinearlyOrders Component.before where
  irrefl a := by
    cases a with
    | name text => exact linearlyOrders_nameBefore.irrefl text
    | _ => rfl
  trans := by
    intro a b c hab hbc
    cases a <;> cases b <;> cases c <;>
      first
      | exact linearlyOrders_nameBefore.trans hab hbc
      | simp_all [Component.before, Component.rank]
  eq_of_neither := by
    intro a b hab hba
    cases a <;> cases b <;>
      first
      | rw [linearlyOrders_nameBefore.eq_of_neither hab hba]
      | simp_all [Component.before, Component.rank]

theorem linearlyOrders_span : LinearlyOrders Span.before where
  irrefl a := by simp [Span.before]
  trans := by
    intro a b c hab hbc
    simp only [Span.before, Bool.or_eq_true, Bool.and_eq_true, decide_eq_true_eq,
      beq_iff_eq] at hab hbc ⊢
    omega
  eq_of_neither := by
    intro a b hab hba
    obtain ⟨line, start, stop⟩ := a
    obtain ⟨line', start', stop'⟩ := b
    simp only [Span.before, Bool.or_eq_false_iff, Bool.and_eq_false_iff,
      decide_eq_false_iff_not, beq_eq_false_iff_ne] at hab hba
    rw [Span.mk.injEq]
    omega

/-! ## The order of paths -/

namespace Path

theorem same_iff {p q : Path} : p.same q = true ↔ p.components = q.components := by
  simp [same]

@[simp] theorem same_refl (p : Path) : p.same p = true := by simp [same]

theorem same_symm {p q : Path} (h : p.same q = true) : q.same p = true := by
  rw [same_iff] at h ⊢
  exact h.symm

theorem same_trans {p q r : Path} (h : p.same q = true) (h' : q.same r = true) :
    p.same r = true := by
  rw [same_iff] at h h' ⊢
  exact h.trans h'

theorem before_irrefl (p : Path) : p.before p = false :=
  linearlyOrders_component.dictionary.irrefl _

theorem before_trans {p q r : Path} (h : p.before q = true) (h' : q.before r = true) :
    p.before r = true :=
  linearlyOrders_component.dictionary.trans h h'

theorem before_asymm {p q : Path} (h : p.before q = true) : q.before p = false :=
  linearlyOrders_component.dictionary.asymm h

/-- Two paths are spellings of one path when neither comes before the other. -/
theorem same_iff_neither_before {p q : Path} :
    p.same q = true ↔ p.before q = false ∧ q.before p = false := by
  rw [same_iff]
  constructor
  · intro h
    rw [before, before, h]
    exact ⟨linearlyOrders_component.dictionary.irrefl _,
      linearlyOrders_component.dictionary.irrefl _⟩
  · rintro ⟨h, h'⟩
    exact linearlyOrders_component.dictionary.eq_of_neither h h'

end Path

/-! ## Sorted insertion -/

section InsertSorted

variable {α : Type} {before : α → α → Bool}

theorem mem_of_mem_insertSorted {x y : α} {l : List α} (h : y ∈ insertSorted before x l) :
    y = x ∨ y ∈ l := by
  induction l with
  | nil => simpa [insertSorted] using h
  | cons z l ih =>
    simp only [insertSorted] at h
    split at h
    · exact List.mem_cons.1 h
    · split at h
      · rcases List.mem_cons.1 h with rfl | h
        · exact .inr List.mem_cons_self
        · exact (ih h).imp_right (List.mem_cons_of_mem z)
      · exact .inr h

theorem mem_insertSorted_of_mem {x y : α} {l : List α} (h : y ∈ l) :
    y ∈ insertSorted before x l := by
  induction l with
  | nil => cases h
  | cons z l ih =>
    simp only [insertSorted]
    split
    · exact List.mem_cons_of_mem x h
    · split
      · rcases List.mem_cons.1 h with rfl | h
        · exact List.mem_cons_self
        · exact List.mem_cons_of_mem z (ih h)
      · exact h

theorem pairwise_insertSorted {x : α} {l : List α} (h : l.Pairwise (before · · = true))
    (htrans : ∀ a b c, before a b = true → before b c = true → before a c = true) :
    (insertSorted before x l).Pairwise (before · · = true) := by
  induction l with
  | nil => simp [insertSorted]
  | cons z l ih =>
    obtain ⟨hz, hl⟩ := List.pairwise_cons.1 h
    simp only [insertSorted]
    split
    · next hxz =>
      refine List.pairwise_cons.2 ⟨fun y hy => ?_, h⟩
      rcases List.mem_cons.1 hy with rfl | hy
      · exact hxz
      · exact htrans x z y hxz (hz y hy)
    · split
      · next hzx =>
        refine List.pairwise_cons.2 ⟨fun y hy => ?_, ih hl⟩
        rcases mem_of_mem_insertSorted hy with rfl | hy
        · exact hzx
        · exact hz y hy
      · exact h

/-- In a linear order an inserted element is there. -/
theorem mem_insertSorted (h : LinearlyOrders before) {x y : α} {l : List α} :
    y ∈ insertSorted before x l ↔ y = x ∨ y ∈ l := by
  refine ⟨mem_of_mem_insertSorted, ?_⟩
  rintro (rfl | hy)
  · induction l with
    | nil => simp [insertSorted]
    | cons z l ih =>
      simp only [insertSorted]
      split
      · exact List.mem_cons_self
      · next hyz =>
        split
        · exact List.mem_cons_of_mem z ih
        · next hzy =>
          rw [Bool.not_eq_true] at hyz hzy
          rw [h.eq_of_neither hyz hzy]
          exact List.mem_cons_self
  · exact mem_insertSorted_of_mem hy

theorem insertSorted_eq_append (hasymm : ∀ a b, before a b = true → before b a = false) {x : α}
    {l : List α} (h : ∀ y ∈ l, before y x = true) : insertSorted before x l = l ++ [x] := by
  induction l with
  | nil => rfl
  | cons y l ih =>
    obtain ⟨hy, hl⟩ := List.forall_mem_cons.1 h
    rw [insertSorted, hasymm y x hy, if_neg Bool.false_ne_true, if_pos hy, ih hl, List.cons_append]

/-- Sorting moves nothing in a list that is in order. -/
theorem sorted_of_pairwise (hasymm : ∀ a b, before a b = true → before b a = false) {l : List α}
    (h : l.Pairwise (before · · = true)) : sorted before l = l := by
  have hfold : ∀ l acc : List α, (acc ++ l).Pairwise (before · · = true) →
      l.foldl (fun acc x => insertSorted before x acc) acc = acc ++ l := by
    intro l
    induction l with
    | nil => simp
    | cons x l ih =>
      intro acc h
      have hx : ∀ y ∈ acc, before y x = true :=
        fun y hy => (List.pairwise_append.1 h).2.2 y hy x List.mem_cons_self
      rw [List.foldl_cons, insertSorted_eq_append hasymm hx, ih _ (by simpa using h)]
      simp
  exact hfold l [] h

end InsertSorted

theorem mem_mergeSpans {spans old : List Span} {s : Span} :
    s ∈ mergeSpans spans old ↔ s ∈ spans ∨ s ∈ old := by
  induction spans generalizing old with
  | nil => simp [mergeSpans]
  | cons span spans ih =>
    have hstep : mergeSpans (span :: spans) old =
        mergeSpans spans (insertSorted Span.before span old) := rfl
    rw [hstep, ih, mem_insertSorted linearlyOrders_span, List.mem_cons]
    grind

theorem pairwise_mergeSpans {spans old : List Span} (h : old.Pairwise (Span.before · · = true)) :
    (mergeSpans spans old).Pairwise (Span.before · · = true) := by
  induction spans generalizing old with
  | nil => exact h
  | cons span spans ih =>
    exact ih (pairwise_insertSorted h fun _ _ _ => linearlyOrders_span.trans)

/-! ## Locations in order -/

namespace Locations

/-- Modules are listed in path order, and the spans of each in the order of
spans. -/
def InOrder (l : Locations) : Prop :=
  l.entries.Pairwise (fun a b => a.1.before b.1 = true) ∧
    ∀ entry ∈ l.entries, entry.2.Pairwise (Span.before · · = true)

/-- A span is listed under some spelling of a module. -/
def Mentions (l : Locations) (module : Path) (span : Span) : Prop :=
  ∃ entry ∈ l.entries, entry.1.same module = true ∧ span ∈ entry.2

end Locations

section AlterEntry

variable {α : Type} {module : Path} {change : List α → List α} {l : List (Path × List α)}

theorem fst_of_mem_alterEntry {entry : Path × List α} (h : entry ∈ alterEntry module change l) :
    entry.1 = module ∨ ∃ old ∈ l, entry.1 = old.1 := by
  induction l with
  | nil => simp_all [alterEntry]
  | cons other rest ih =>
    simp only [alterEntry] at h
    split at h
    · grind
    · split at h
      · grind
      · grind

theorem pairwise_alterEntry (h : l.Pairwise fun a b => a.1.before b.1 = true) :
    (alterEntry module change l).Pairwise fun a b => a.1.before b.1 = true := by
  induction l with
  | nil => simp [alterEntry]
  | cons other rest ih =>
    obtain ⟨hother, hrest⟩ := List.pairwise_cons.1 h
    simp only [alterEntry]
    split
    · next hlt =>
      refine List.pairwise_cons.2 ⟨fun entry hentry => ?_, h⟩
      rcases List.mem_cons.1 hentry with rfl | hentry
      · exact hlt
      · exact Path.before_trans hlt (hother entry hentry)
    · split
      · next hgt =>
        refine List.pairwise_cons.2 ⟨fun entry hentry => ?_, ih hrest⟩
        rcases fst_of_mem_alterEntry hentry with heq | ⟨old, hold, heq⟩
        · rw [heq]; exact hgt
        · rw [heq]; exact hother old hold
      · exact List.pairwise_cons.2 ⟨hother, hrest⟩

/-- What holds of every list that is kept, and of every list that was changed, holds after a
change. -/
theorem forall_snd_alterEntry {P : List α → Prop} (hchange : ∀ old, P old → P (change old))
    (hnil : P []) (h : ∀ entry ∈ l, P entry.2) :
    ∀ entry ∈ alterEntry module change l, P entry.2 := by
  induction l with
  | nil =>
    intro entry hentry
    simp only [alterEntry, List.mem_singleton] at hentry
    subst hentry
    exact hchange [] hnil
  | cons other rest ih =>
    obtain ⟨hother, hrest⟩ := List.forall_mem_cons.1 h
    simp only [alterEntry]
    split
    · exact List.forall_mem_cons.2 ⟨hchange [] hnil, h⟩
    · split
      · exact List.forall_mem_cons.2 ⟨hother, ih hrest⟩
      · exact List.forall_mem_cons.2 ⟨hchange _ hother, hrest⟩

/-- A module behind all others is given the last entry. -/
theorem alterEntry_of_behind (h : ∀ entry ∈ l, entry.1.before module = true) :
    alterEntry module change l = l ++ [(module, change [])] := by
  induction l with
  | nil => rfl
  | cons other rest ih =>
    obtain ⟨hother, hrest⟩ := List.forall_mem_cons.1 h
    rw [alterEntry, Path.before_asymm hother, if_neg Bool.false_ne_true, if_pos hother, ih hrest,
      List.cons_append]

end AlterEntry

namespace Locations

/-- What is entered is listed, and nothing that was listed is lost. -/
theorem mentions_add {l : Locations} {module p : Path} {spans : List Span} {s : Span} :
    (l.add module spans).Mentions p s ↔
      module.same p = true ∧ s ∈ spans ∨ l.Mentions p s := by
  obtain ⟨entries⟩ := l
  show (Locations.mk (alterEntry module (mergeSpans spans) entries)).Mentions p s ↔ _
  induction entries with
  | nil => simp [Locations.Mentions, alterEntry, mem_mergeSpans]
  | cons other rest ih =>
    simp only [Locations.Mentions] at ih ⊢
    simp only [alterEntry]
    split
    · simp only [List.mem_cons, exists_eq_or_imp, mem_mergeSpans, List.not_mem_nil, or_false]
    · next hlt =>
      split
      · simp only [List.mem_cons, exists_eq_or_imp, ih]
        exact or_left_comm
      · next hgt =>
        -- the entry stands for the module under another spelling
        have hsame : module.same other.1 = true :=
          Path.same_iff_neither_before.2 ⟨by simpa using hlt, by simpa using hgt⟩
        have hiff : other.1.same p = module.same p := by
          rw [Path.same_iff] at hsame
          simp only [Path.same, hsame]
        simp only [List.mem_cons, exists_eq_or_imp, mem_mergeSpans, hiff]
        grind

theorem InOrder.add {l : Locations} (h : l.InOrder) (module : Path) (spans : List Span) :
    (l.add module spans).InOrder :=
  ⟨pairwise_alterEntry h.1,
    forall_snd_alterEntry (fun _ hold => pairwise_mergeSpans hold) .nil h.2⟩

theorem InOrder.withoutEmpty {l : Locations} (h : l.InOrder) : l.withoutEmpty.InOrder :=
  ⟨h.1.sublist List.filter_sublist, fun entry hentry => h.2 entry (List.mem_filter.1 hentry).1⟩

theorem inOrder_empty : empty.InOrder := by simp [InOrder, empty]

theorem mentions_withoutEmpty {l : Locations} {p : Path} {s : Span} :
    l.withoutEmpty.Mentions p s ↔ l.Mentions p s := by
  constructor
  · rintro ⟨entry, hentry, hsame, hs⟩
    exact ⟨entry, (List.mem_filter.1 hentry).1, hsame, hs⟩
  · rintro ⟨entry, hentry, hsame, hs⟩
    refine ⟨entry, List.mem_filter.2 ⟨hentry, ?_⟩, hsame, hs⟩
    simp [List.ne_nil_of_mem hs]

theorem not_mentions_empty {p : Path} {s : Span} : ¬ empty.Mentions p s := by
  rintro ⟨entry, hentry, -⟩
  cases hentry

end Locations

end SymbolAtlas
