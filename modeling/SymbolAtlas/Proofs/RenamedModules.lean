import SymbolAtlas.ImportIndex.Basic
import SymbolAtlas.Proofs.ReferenceIndex
import SymbolAtlas.Proofs.Relabelling
import SymbolAtlas.Proofs.Replacing

/-!
# Modules with a renamed text

A rename replaces in the text of a module the identifiers that refer to chosen
bindings: its own names by the places where they are used, and the names of other
modules by the places where they are imported.  When the spans that are replaced
are just these, the outline of the new text is the relabelled one.

## Main Definitions

* `Identifier.replaced`: what becomes of an identifier.
* `Hits`: spans are the places in a module that refer to chosen bindings.

## Main Statements

* `parse_replaceSpans`: the outline of the new text.
* `Hits.fits`: what becomes of identifiers fits what becomes of names.
-/

namespace SymbolAtlas

/-- What becomes of an identifier when spans are replaced. -/
def Identifier.replaced (spans : List Span) (new : String) (i : Identifier) : Identifier :=
  ⟨if i.span ∈ spans then new else i.text, i.span.moved spans new.length⟩

/-- Related lists without repetition are related by a function. -/
theorem exists_map_of_forall₂ {α : Type} [DecidableEq α] {P : α → α → Prop} {as bs : List α}
    (h : List.Forall₂ P as bs) (hnodup : as.Nodup) :
    ∃ f : α → α, bs = as.map f ∧ (∀ a ∈ as, P a (f a)) ∧ ∀ a, a ∉ as → f a = a := by
  induction h with
  | nil => exact ⟨id, rfl, nofun, fun _ _ => rfl⟩
  | @cons a b as bs hab _ ih =>
    obtain ⟨hnew, hnodup⟩ := List.nodup_cons.1 hnodup
    obtain ⟨f, hmap, hrelated, hother⟩ := ih hnodup
    have hkept : ∀ c ∈ as, Function.update f a b c = f c := by
      intro c hc
      have hne : c ≠ a := fun heq => hnew (heq ▸ hc)
      exact Function.update_of_ne hne b f
    refine ⟨Function.update f a b, ?_, ?_, ?_⟩
    · rw [List.map_cons, Function.update_self, hmap, List.map_congr_left hkept]
    · refine List.forall_mem_cons.2 ⟨by rwa [Function.update_self], fun c hc => ?_⟩
      rw [hkept c hc]
      exact hrelated c hc
    · intro c hc
      rw [Function.update_of_ne (List.ne_of_not_mem_cons hc)]
      exact hother c (List.not_mem_of_not_mem_cons hc)

section Outlines

variable {text new : String} {tokens : List Token} {phrases : List Phrase} {spans : List Span}

/-- The outline of a text in which identifiers are replaced, none of them a segment
of a package. -/
theorem parse_replaceSpans (htokens : tokenize text = .ok tokens)
    (hphrases : Phrased 0 tokens phrases) (hnew : IsIdentifier new.toList)
    (hspans : ∀ span ∈ spans, ∃ t ∈ tokens, t.kind = .identifier ∧ t.identifier.span = span)
    (hsegments : ∀ t, (t, Role.segment) ∈ rolesOf phrases → t.identifier.span ∉ spans) :
    Outline.parse (replaceSpans spans new text) =
        .ok ((outlineOf phrases).map (Identifier.replaced spans new)) ∧
      (((outlineOf phrases).map (Identifier.replaced spans new)).identifiers.map
        (·.span)).Nodup := by
  obtain ⟨tokens', htokens', hrelabels⟩ := tokenize_replaceSpans htokens hnew hspans
  obtain ⟨f, rfl, hf, hother⟩ := exists_map_of_forall₂ hrelabels (nodup_tokenize htokens)
  have hkind : ∀ t, (f t).kind = t.kind := by
    intro t
    by_cases ht : t ∈ tokens
    · exact (hf t ht).kind
    · rw [hother t ht]
  have hcarries : ∀ r ∈ rolesOf phrases, Carries f (Identifier.replaced spans new) r := by
    intro r hr
    have ht : r.1 ∈ tokens := by
      rw [← hphrases.tokens_eq]
      exact List.mem_map_of_mem hr
    constructor
    · intro hsegment
      have hspan := hsegments r.1 (by rwa [← hsegment])
      rw [(hf r.1 ht).lexeme, if_neg fun h => hspan h.2]
    · intro hrole
      have hidentifier := hphrases.kind_of_role hr hrole
      have hlexeme := (hf r.1 ht).lexeme
      have hspan := (hf r.1 ht).span hidentifier
      simp only [hidentifier, true_and] at hlexeme
      exact Identifier.mk.injEq _ _ _ _ ▸ ⟨hlexeme, hspan⟩
  have hphrases' := hphrases.map hkind
  have houtline := outlineOf_map hcarries hkind
  rw [← houtline]
  exact ⟨parse_eq_ok_iff.2 ⟨_, _, htokens', hphrases', rfl⟩, nodup_identifiers htokens' hphrases'⟩

end Outlines

/-! ## Tokens by their places -/

section Places

variable {text : String} {tokens : List Token} {phrases : List Phrase}

theorem nodup_roleSpans (htokens : tokenize text = .ok tokens)
    (hphrases : Phrased 0 tokens phrases) :
    ((rolesOf phrases).map (·.1.identifier.span)).Nodup := by
  have hordered := pairwise_span_tokenize htokens
  rw [← hphrases.tokens_eq, List.map_map] at hordered
  refine hordered.imp ?_
  rintro a b hab rfl
  rw [linearlyOrders_span.irrefl] at hab
  cases hab

/-- One place has one token, with one role. -/
theorem eq_of_roleSpan (htokens : tokenize text = .ok tokens) (hphrases : Phrased 0 tokens phrases)
    {r r' : Token × Role} (hr : r ∈ rolesOf phrases) (hr' : r' ∈ rolesOf phrases)
    (h : r.1.identifier.span = r'.1.identifier.span) : r = r' :=
  List.inj_on_of_nodup_map (nodup_roleSpans htokens hphrases) hr hr' h

theorem exists_reference {i : Identifier} (hi : i ∈ (outlineOf phrases).identifiers) :
    ∃ t : Token, t.identifier = i ∧ (t, Role.reference) ∈ rolesOf phrases := by
  rw [identifiers_outlineOf] at hi
  obtain ⟨t, ht, rfl⟩ := List.mem_map.1 hi
  obtain ⟨r, hr, rfl⟩ := List.mem_map.1 ht
  obtain ⟨hmem, hrole⟩ := List.mem_filter.1 hr
  exact ⟨r.1, rfl, by rwa [← of_decide_eq_true hrole]⟩

/-- The imported names stand at different places. -/
theorem eq_of_takenSpan (htokens : tokenize text = .ok tokens) (hphrases : Phrased 0 tokens phrases)
    {dependencies : List Module}
    (hlength : (outlineOf phrases).imports.length = dependencies.length)
    {taken taken' : Module × ImportItem}
    (htaken : taken ∈ takenItems ((outlineOf phrases).imports.zip dependencies))
    (htaken' : taken' ∈ takenItems ((outlineOf phrases).imports.zip dependencies))
    (h : taken.2.name.span = taken'.2.name.span) : taken = taken' := by
  have hsublist := (itemNames_sublist phrases).map Identifier.span
  have hroles : (rolesOf phrases).map (·.1.identifier.span) =
      ((rolesOf phrases).map (·.1.identifier)).map Identifier.span := by
    rw [List.map_map]
    rfl
  have hnodup := nodup_roleSpans htokens hphrases
  rw [hroles] at hnodup
  have hnames := hnodup.sublist hsublist
  rw [← map_snd_takenItems hlength, List.map_map, List.map_map] at hnames
  exact List.inj_on_of_nodup_map hnames htaken htaken' h

end Places

/-! ## Spans that are hit -/

/-- Spans are the places in a module that refer to chosen bindings: to its own
names, and to the names that it imports from its dependencies. -/
structure Hits (chosen : Binding → Prop) (spans : List Span) (path : Path) (tokens : List Token)
    (phrases : List Phrase) (dependencies : List Module) : Prop where
  tokens : ∀ span ∈ spans, ∃ t ∈ tokens, t.kind = .identifier ∧ t.identifier.span = span
  segments : ∀ t, (t, Role.segment) ∈ rolesOf phrases → t.identifier.span ∉ spans
  own : ∀ i ∈ (outlineOf phrases).identifiers, i.span ∈ spans ↔ chosen ⟨path, i.text⟩
  taken : ∀ taken ∈ takenItems ((outlineOf phrases).imports.zip dependencies),
    taken.2.name.span ∈ spans ↔ chosen ⟨taken.1.path, taken.2.name.text⟩

open Classical in
/-- The relabelling that gives chosen bindings a new name, which is put in the place
of given spans of each module. -/
noncomputable def renameTo (chosen : Binding → Prop) (spansAt : Path → List Span) (new : String) :
    Relabelling where
  rename path name := if chosen ⟨path, name⟩ then new else name
  move path := Span.moved (spansAt path) new.length
  rewrite path := replaceSpans (spansAt path) new

section Renaming

variable {chosen : Binding → Prop} {spansAt : Path → List Span} {new : String} {path : Path}
  {tokens : List Token} {phrases : List Phrase} {dependencies : List Module}

/-- A name that is new keeps apart what was apart. -/
theorem rename_injective (hone : ∀ a b, chosen ⟨path, a⟩ → chosen ⟨path, b⟩ → a = b)
    {a b : String} (ha : chosen ⟨path, b⟩ → a ≠ new) (hb : chosen ⟨path, a⟩ → b ≠ new)
    (h : (renameTo chosen spansAt new).rename path a =
      (renameTo chosen spansAt new).rename path b) :
    a = b := by
  simp only [renameTo] at h
  by_cases hchosen : chosen ⟨path, a⟩
  · by_cases hother : chosen ⟨path, b⟩
    · exact hone a b hchosen hother
    · rw [if_pos hchosen, if_neg hother] at h
      exact absurd h.symm (hb hchosen)
  · by_cases hother : chosen ⟨path, b⟩
    · rw [if_neg hchosen, if_pos hother] at h
      exact absurd h (ha hother)
    · rwa [if_neg hchosen, if_neg hother] at h

open Classical in
/-- What becomes of identifiers fits what becomes of names. -/
theorem Hits.fits (h : Hits chosen (spansAt path) path tokens phrases dependencies)
    (hone : ∀ a b, chosen ⟨path, a⟩ → chosen ⟨path, b⟩ → a = b)
    (hfresh : ∀ a, chosen ⟨path, a⟩ → ∀ i ∈ (outlineOf phrases).identifiers, i.text ≠ new)
    (hnodup : (((outlineOf phrases).map (Identifier.replaced (spansAt path) new)).identifiers.map
      (·.span)).Nodup) :
    (renameTo chosen spansAt new).Fits (Identifier.replaced (spansAt path) new) path
      (outlineOf phrases) dependencies where
  span _ := rfl
  identifier i hi := if_congr (h.own i hi) rfl rfl
  taken taken htaken := if_congr (h.taken taken htaken) rfl rfl
  names_apart i hi j hj :=
    rename_injective hone (fun hchosen => hfresh _ hchosen i hi)
      fun hchosen => hfresh _ hchosen j hj
  spans_apart i hi j hj heq := by
    rw [Outline.map, List.map_map] at hnodup
    rw [List.inj_on_of_nodup_map hnodup hi hj heq]

end Renaming

end SymbolAtlas
