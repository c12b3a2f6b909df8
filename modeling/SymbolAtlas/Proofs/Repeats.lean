import Mathlib.Data.List.Induction

/-!
# Lists without their repetitions

Tables and rosters are filled step by step, and a step that brings what is there
already adds nothing.  What they hold is then the list of first occurrences among
all that was brought, `List.eraseDupsBy`, which only grows at its end.

## Main Statements

* `eraseDupsBy_concat`: one more element is added unless it repeats one.
* `eraseDupsBy_prefix_append`: later elements change nothing that is there.
* `pairwise_eraseDupsBy`, `exists_mem_eraseDupsBy`: nothing is there twice, and
  everything is there once.
* `eraseDupsBy_append_eq_iff`: when later elements add nothing.
-/

namespace SymbolAtlas

variable {α : Type} (alike : α → α → Bool)

/-- One more element is added at the end unless it repeats one that is there. -/
theorem eraseDupsBy_concat (l : List α) (a : α) :
    (l ++ [a]).eraseDupsBy alike =
      if (l.eraseDupsBy alike).any (alike a) then l.eraseDupsBy alike
      else l.eraseDupsBy alike ++ [a] := by
  have hloop : ∀ l kept : List α,
      List.eraseDupsBy.loop alike (l ++ [a]) kept =
        if (List.eraseDupsBy.loop alike l kept).any (alike a) then
          List.eraseDupsBy.loop alike l kept
        else List.eraseDupsBy.loop alike l kept ++ [a] := by
    intro l
    induction l with
    | nil =>
      intro kept
      cases h : kept.any (alike a) <;> simp [List.eraseDupsBy.loop, h]
    | cons b l ih =>
      intro kept
      rw [List.cons_append, List.eraseDupsBy.loop, List.eraseDupsBy.loop]
      split
      · exact ih kept
      · exact ih (b :: kept)
  exact hloop l []

/-- What is left stands in the same order as before. -/
theorem eraseDupsBy_sublist (l : List α) : (l.eraseDupsBy alike).Sublist l := by
  induction l using List.reverseRecOn with
  | nil => exact .slnil
  | append_singleton l a ih =>
    rw [eraseDupsBy_concat]
    split
    · exact ih.trans (List.sublist_append_left l [a])
    · exact ih.append (List.Sublist.refl [a])

/-- Later elements change nothing that is there. -/
theorem eraseDupsBy_prefix_append (front back : List α) :
    front.eraseDupsBy alike <+: (front ++ back).eraseDupsBy alike := by
  induction back using List.reverseRecOn with
  | nil => simp only [List.append_nil, List.prefix_rfl]
  | append_singleton back a ih =>
    rw [← List.append_assoc, eraseDupsBy_concat]
    split
    · exact ih
    · exact ih.trans (List.prefix_append _ [a])

/-- What is left has no repetition. -/
theorem pairwise_eraseDupsBy (l : List α) :
    (l.eraseDupsBy alike).Pairwise fun a b => alike b a = false := by
  induction l using List.reverseRecOn with
  | nil => exact .nil
  | append_singleton l a ih =>
    rw [eraseDupsBy_concat]
    split
    · exact ih
    · next hnew =>
      rw [List.pairwise_append]
      refine ⟨ih, List.pairwise_singleton _ a, fun b hb a' ha' => ?_⟩
      rw [List.mem_singleton.1 ha']
      simpa using fun h => hnew (List.any_eq_true.2 ⟨b, hb, h⟩)

variable {alike}

/-- Every element is represented. -/
theorem exists_mem_eraseDupsBy (hrefl : ∀ a, alike a a = true) {l : List α} {a : α} (h : a ∈ l) :
    ∃ b ∈ l.eraseDupsBy alike, alike a b = true := by
  induction l using List.reverseRecOn with
  | nil => cases h
  | append_singleton l last ih =>
    rw [eraseDupsBy_concat]
    rcases List.mem_append.1 h with h | h
    · obtain ⟨b, hb, hab⟩ := ih h
      split
      · exact ⟨b, hb, hab⟩
      · exact ⟨b, List.mem_append_left _ hb, hab⟩
    · obtain rfl := List.mem_singleton.1 h
      split
      · next hany => exact List.any_eq_true.1 hany
      · exact ⟨a, by simp, hrefl a⟩

/-- A list without repetitions is left as it is. -/
theorem eraseDupsBy_of_pairwise {l : List α}
    (h : l.Pairwise fun a b => alike b a = false) : l.eraseDupsBy alike = l := by
  induction l using List.reverseRecOn with
  | nil => rfl
  | append_singleton l a ih =>
    obtain ⟨hl, -, hnew⟩ := List.pairwise_append.1 h
    have hany : l.any (alike a) = false := by
      rw [List.any_eq_false]
      intro b hb
      rw [hnew b hb a (List.mem_singleton_self a)]
      exact Bool.false_ne_true
    rw [eraseDupsBy_concat, ih hl, hany, if_neg Bool.false_ne_true]

/-- To a list without repetitions nothing is added exactly when everything that comes repeats
something in it. -/
theorem eraseDupsBy_append_eq_iff (hrefl : ∀ a, alike a a = true) {front back : List α}
    (h : front.Pairwise fun a b => alike b a = false) :
    (front ++ back).eraseDupsBy alike = front ↔ ∀ a ∈ back, ∃ b ∈ front, alike a b = true := by
  constructor
  · intro heq a ha
    obtain ⟨b, hb, hab⟩ := exists_mem_eraseDupsBy hrefl (List.mem_append_right front ha)
    exact ⟨b, heq ▸ hb, hab⟩
  · intro hback
    induction back using List.reverseRecOn with
    | nil => rw [List.append_nil, eraseDupsBy_of_pairwise h]
    | append_singleton back a ih =>
      have hrest := ih fun b hb => hback b (List.mem_append_left [a] hb)
      have hany : front.any (alike a) = true :=
        List.any_eq_true.2 (hback a (List.mem_append_right back (List.mem_singleton_self a)))
      rw [← List.append_assoc, eraseDupsBy_concat, hrest, if_pos hany]

end SymbolAtlas
