import Mathlib.Data.List.DropRight
import Mathlib.Data.List.Induction
import SymbolAtlas.Proofs.JoinedPaths

/-!
# Climbing from folder to folder

Climbing takes components off the end of a path, as it is spelled.  Where a path leads depends on
its components only, but what a component does depends on its sort: taking off a name leads one
folder up, taking off a `..` leads down, and taking off a `.` leads nowhere else.

## Main Definitions

* `Path.endsInNames`: the last components of a path are names.
* `FileTree.followComponents`: where components lead.

## Main Statements

* `Path.parent?_cases`: the components of a parent.
* `exists_climbFolders`, `components_of_climbFolders`: the components after a climb.
* `FileTree.followComponents_of_baseOf`, `FileTree.baseOf_of_followComponents`: where a path leads
  depends on its components.
* `FileTree.baseOf_of_endsInNames`: a climb over names leads up.
* `FileTree.length_lt_of_climbFolders`: any other climb does not lead up that far.
-/

namespace SymbolAtlas

/-! ## Components -/

namespace Component

/-- The segment that is followed for a component, if one is. -/
def segment? : Component → Option String
  | root => none
  | here => none
  | up => some ".."
  | name text => some text

/-- Whether a component is a name. -/
def isName : Component → Bool
  | name _ => true
  | _ => false

theorem exists_of_isName {c : Component} (h : c.isName = true) : ∃ text, c = name text := by
  cases c with
  | name text => exact ⟨text, rfl⟩
  | root => cases h
  | here => cases h
  | up => cases h

theorem ofSegment?_eq_none_iff {segment : String} :
    ofSegment? segment = none ↔ Path.isIdle segment = true := by
  unfold ofSegment? Path.isIdle
  split
  · next h => simp [h]
  · split
    · next h => simp [h]
    · next h h' => split <;> simp [h, h']

theorem bind_segment?_ofSegment? (segment : String) :
    (ofSegment? segment).bind segment? =
      if Path.isIdle segment = true then none else some segment := by
  unfold ofSegment? Path.isIdle
  split
  · next h => simp [h]
  · split
    · next h => simp [h]
    · next h h' =>
      split
      · next h'' => simp [h'', segment?]
      · simp [h, h', segment?]

theorem root_notMem_ofSegment? (segments : List String) :
    root ∉ segments.filterMap ofSegment? := by
  intro hmem
  obtain ⟨segment, -, hsegment⟩ := List.mem_filterMap.1 hmem
  unfold ofSegment? at hsegment
  split at hsegment
  · cases hsegment
  · split at hsegment
    · cases hsegment
    · split at hsegment <;> cases hsegment

end Component

theorem splitNames_joinNames {separator : Char} {names : List String} (hne : names ≠ [])
    (h : ∀ name ∈ names, separator ∉ name.toList) :
    splitNames separator (joinNames separator names) = names := by
  rw [splitNames, joinNames, String.toList_ofList, cutAt_joinPieces (by simpa using hne)]
  · simp [Function.comp_def]
  · intro piece hpiece
    obtain ⟨name, hname, rfl⟩ := List.mem_map.1 hpiece
    exact h name hname

namespace Path

variable {p : Path}

theorem exists_segments_of_isAbsolute (h : p.isAbsolute = true) :
    ∃ rest, p.segments = "" :: rest := by
  obtain ⟨chars, hchars⟩ := List.head?_eq_some_iff.1 (beq_iff_eq.1 h)
  rw [segments, splitNames, hchars, cutAt, if_pos rfl]
  exact ⟨(cutAt '/' chars).map String.ofList, rfl⟩

/-- The first segment is empty only at the top, and in the empty path. -/
theorem spelling_of_head? (habsolute : p.isAbsolute = false)
    (h : p.segments.head? = some "") : p.spelling = "" := by
  rw [isAbsolute, beq_eq_false_iff_ne] at habsolute
  rw [segments, splitNames] at h
  cases hchars : p.spelling.toList with
  | nil => exact String.toList_eq_nil_iff.1 hchars
  | cons c chars =>
    rw [hchars] at h habsolute
    have hc : c ≠ '/' := fun heq => habsolute (by rw [heq, List.head?_cons])
    obtain ⟨piece, pieces, hcut⟩ := exists_cutAt_cons hc chars
    simp [hcut] at h

/-- The components of a path from the top. -/
theorem components_of_top {kept : List String} (h : ∀ segment ∈ kept, '/' ∉ segment.toList) :
    (mk ("/" ++ joinNames '/' kept)).components =
      .root :: kept.filterMap Component.ofSegment? := by
  have habsolute : (mk ("/" ++ joinNames '/' kept)).isAbsolute = true := by simp [isAbsolute]
  have hsegments : (mk ("/" ++ joinNames '/' kept)).segments =
      "" :: splitNames '/' (joinNames '/' kept) := by
    simp [segments, splitNames, cutAt]
  rw [components, if_pos habsolute, hsegments]
  by_cases hkept : kept = []
  · rw [hkept]
    rfl
  · rw [splitNames_joinNames hkept h]
    rfl

/-- The components of a path from the working folder that says so. -/
theorem components_of_here {kept : List String} (h : ∀ segment ∈ kept, '/' ∉ segment.toList) :
    (mk (joinNames '/' ("." :: kept))).components =
      .here :: kept.filterMap Component.ofSegment? := by
  have hslash : ∀ segment ∈ "." :: kept, '/' ∉ segment.toList :=
    List.forall_mem_cons.2 ⟨by decide, h⟩
  have hsegments : (mk (joinNames '/' ("." :: kept))).segments = "." :: kept :=
    splitNames_joinNames (by simp) hslash
  have habsolute : ¬ (mk (joinNames '/' ("." :: kept))).isAbsolute = true := by
    intro habsolute
    obtain ⟨rest, hrest⟩ := exists_segments_of_isAbsolute habsolute
    rw [hsegments] at hrest
    exact absurd (List.cons.inj hrest).1 (by decide)
  rw [components, if_neg habsolute, if_pos (by rw [hsegments]; rfl), hsegments]
  rfl

/-- The components of a path from the working folder that does not say so. -/
theorem components_of_plain {kept : List String} (h : ∀ segment ∈ kept, '/' ∉ segment.toList)
    (hempty : kept.head? ≠ some "") (hhere : kept.head? ≠ some ".") :
    (mk (joinNames '/' kept)).components = kept.filterMap Component.ofSegment? := by
  by_cases hkept : kept = []
  · rw [hkept]
    rfl
  · have hsegments : (mk (joinNames '/' kept)).segments = kept := splitNames_joinNames hkept h
    have habsolute : ¬ (mk (joinNames '/' kept)).isAbsolute = true := by
      intro habsolute
      obtain ⟨rest, hrest⟩ := exists_segments_of_isAbsolute habsolute
      rw [hsegments] at hrest
      exact hempty (by rw [hrest, List.head?_cons])
    rw [components, if_neg habsolute, if_neg (by rwa [hsegments]), hsegments]

/-! ### Idle segments -/

theorem filterMap_dropIdle (segments : List String) :
    (dropIdle segments).filterMap Component.ofSegment? =
      segments.filterMap Component.ofSegment? := by
  show (segments.rdropWhile isIdle).filterMap _ = _
  induction segments using List.reverseRecOn with
  | nil => rfl
  | append_singleton segments segment ih =>
    rw [List.rdropWhile_concat]
    split
    · next hidle =>
      rw [ih, List.filterMap_append, List.filterMap_cons,
        Component.ofSegment?_eq_none_iff.2 hidle]
      simp
    · rfl

/-- The last step of some segments is that of the last component. -/
theorem dropLastStep?_cases (segments : List String) :
    dropLastStep? segments = none ∧ segments.filterMap Component.ofSegment? = [] ∨
      ∃ kept c, dropLastStep? segments = some kept ∧ kept <+: segments ∧ c ≠ .root ∧
        segments.filterMap Component.ofSegment? =
          kept.filterMap Component.ofSegment? ++ [c] := by
  have hfilter := filterMap_dropIdle segments
  by_cases hnil : dropIdle segments = []
  · rw [hnil] at hfilter
    exact .inl ⟨by rw [dropLastStep?, hnil], hfilter.symm⟩
  · right
    have hlast : ¬ isIdle ((dropIdle segments).getLast hnil) = true :=
      List.rdropWhile_last_not isIdle segments hnil
    obtain ⟨c, hc⟩ := Option.ne_none_iff_exists'.1
      fun hnone => hlast (Component.ofSegment?_eq_none_iff.1 hnone)
    have hfront : segments.filterMap Component.ofSegment? =
        (dropIdle segments).dropLast.filterMap Component.ofSegment? ++ [c] := by
      rw [← hfilter]
      conv_lhs => rw [← List.dropLast_concat_getLast hnil]
      rw [List.filterMap_append, List.filterMap_cons, hc]
      rfl
    refine ⟨dropIdle (dropIdle segments).dropLast, c, ?_, ?_, ?_, ?_⟩
    · rw [dropLastStep?]
      split
      · next h => exact absurd h hnil
      · rfl
    · exact (List.rdropWhile_prefix isIdle _).trans
        ((List.dropLast_prefix _).trans (List.rdropWhile_prefix isIdle segments))
    · rintro rfl
      refine Component.root_notMem_ofSegment? segments ?_
      rw [hfront]
      exact List.mem_append_right _ (List.mem_singleton.2 rfl)
    · rw [hfront, filterMap_dropIdle]

/-! ### Parents -/

theorem noSlash_of_mem_segments {segment : String} (h : segment ∈ p.segments) :
    '/' ∉ segment.toList := by
  obtain ⟨piece, hpiece, rfl⟩ := List.mem_map.1 h
  rw [String.toList_ofList]
  exact notMem_of_mem_cutAt hpiece

/-- A path from the top has a parent, unless it is the top itself. -/
theorem parent?_of_top (habsolute : p.isAbsolute = true) :
    p.parent? = none ∧ p.components = [.root] ∨
      ∃ q c, p.parent? = some q ∧ p.components = q.components ++ [c] ∧ c ≠ .root := by
  obtain ⟨rest, hrest⟩ := exists_segments_of_isAbsolute habsolute
  have hcomponents : p.components = .root :: rest.filterMap Component.ofSegment? := by
    rw [components, if_pos habsolute, hrest]
    rfl
  rw [parent?, if_pos habsolute, hrest, List.tail_cons, hcomponents]
  rcases dropLastStep?_cases rest with ⟨hnone, hnil⟩ | ⟨kept, c, hsome, hkept, hc, hfront⟩
  · exact .inl ⟨by rw [hnone]; rfl, by rw [hnil]⟩
  · refine .inr ⟨_, c, by rw [hsome]; rfl, ?_, hc⟩
    rw [components_of_top, hfront]
    · rfl
    · intro segment hsegment
      refine noSlash_of_mem_segments (p := p) ?_
      rw [hrest]
      exact List.mem_cons_of_mem _ (hkept.subset hsegment)

/-- A path that says that it is from the working folder has a parent. -/
theorem parent?_of_here (habsolute : p.isAbsolute = false) (hhere : p.segments.head? = some ".") :
    ∃ q c, p.parent? = some q ∧ p.components = q.components ++ [c] ∧ c ≠ .root := by
  replace habsolute : ¬ p.isAbsolute = true := Bool.eq_false_iff.1 habsolute
  obtain ⟨rest, hrest⟩ := List.head?_eq_some_iff.1 hhere
  have hcomponents : p.components = .here :: rest.filterMap Component.ofSegment? := by
    rw [components, if_neg habsolute, if_pos hhere, hrest]
    rfl
  rw [parent?, if_neg habsolute, if_pos hhere, hrest, List.tail_cons, hcomponents]
  rcases dropLastStep?_cases rest with ⟨hnone, hnil⟩ | ⟨kept, c, hsome, hkept, hc, hfront⟩
  · exact ⟨empty, .here, by rw [hnone], by rw [hnil]; rfl, by decide⟩
  · refine ⟨_, c, by rw [hsome], ?_, hc⟩
    rw [components_of_here, hfront]
    · rfl
    · intro segment hsegment
      refine noSlash_of_mem_segments (p := p) ?_
      rw [hrest]
      exact List.mem_cons_of_mem _ (hkept.subset hsegment)

/-- Any other path has a parent, unless it is empty. -/
theorem parent?_of_plain (habsolute : p.isAbsolute = false)
    (hhere : p.segments.head? ≠ some ".") :
    p.parent? = none ∧ p.components = [] ∨
      ∃ q c, p.parent? = some q ∧ p.components = q.components ++ [c] ∧ c ≠ .root := by
  have hrelative : ¬ p.isAbsolute = true := Bool.eq_false_iff.1 habsolute
  have hcomponents : p.components = p.segments.filterMap Component.ofSegment? := by
    rw [components, if_neg hrelative, if_neg hhere]
  rw [parent?, if_neg hrelative, if_neg hhere, hcomponents]
  rcases dropLastStep?_cases p.segments with
    ⟨hnone, hnil⟩ | ⟨kept, c, hsome, hkept, hc, hfront⟩
  · exact .inl ⟨by rw [hnone]; rfl, hnil⟩
  · refine .inr ⟨_, c, by rw [hsome]; rfl, ?_, hc⟩
    have hhead : ∀ segment, kept.head? = some segment → p.segments.head? = some segment := by
      intro segment hsegment
      obtain ⟨back, hback⟩ := hkept
      rw [← hback, List.head?_append, hsegment]
      rfl
    rw [components_of_plain, hfront]
    · exact fun segment hsegment => noSlash_of_mem_segments (hkept.subset hsegment)
    · intro hempty
      have hsegments : p.segments = [""] := by
        rw [segments, spelling_of_head? habsolute (hhead "" hempty)]
        rfl
      rw [hsegments] at hfront
      simp [Component.ofSegment?] at hfront
    · exact fun hdot => hhere (hhead "." hdot)

/-- The parent of a path has its components without the last.  The top and the empty path have
no parent. -/
theorem parent?_cases (p : Path) :
    p.parent? = none ∧ (p.components = [] ∨ p.components = [.root]) ∨
      ∃ q c, p.parent? = some q ∧ p.components = q.components ++ [c] ∧ c ≠ .root := by
  cases habsolute : p.isAbsolute with
  | true => exact (parent?_of_top habsolute).imp_left fun h => ⟨h.1, .inr h.2⟩
  | false =>
    by_cases hhere : p.segments.head? = some "."
    · exact .inr (parent?_of_here habsolute hhere)
    · exact (parent?_of_plain habsolute hhere).imp_left fun h => ⟨h.1, .inl h.2⟩

end Path

/-! ## Climbing -/

/-- A climb takes off one component for each step, and never the top. -/
theorem components_of_climbFolders {steps : Nat} {p q : Path}
    (h : climbFolders steps p = some q) :
    ∃ back, p.components = q.components ++ back ∧ back.length = steps ∧ .root ∉ back := by
  induction steps generalizing p with
  | zero =>
    obtain rfl := Option.some.inj h
    exact ⟨[], by simp, rfl, List.not_mem_nil⟩
  | succ steps ih =>
    rcases p.parent?_cases with ⟨hnone, -⟩ | ⟨above, c, hsome, hcomponents, hc⟩
    · simp [climbFolders, hnone] at h
    · simp only [climbFolders, hsome] at h
      obtain ⟨back, hback, hlength, hroot⟩ := ih h
      refine ⟨back ++ [c], by rw [hcomponents, hback, List.append_assoc], by simp [hlength], ?_⟩
      rw [List.mem_append, List.mem_singleton, not_or]
      exact ⟨hroot, hc.symm⟩

/-- Names can be taken off. -/
theorem exists_climbFolders {p : Path} {front : List Component} {texts : List String}
    (h : p.components = front ++ texts.map .name) :
    ∃ q, climbFolders texts.length p = some q ∧ q.components = front := by
  induction texts using List.reverseRecOn generalizing p with
  | nil => exact ⟨p, rfl, by simpa using h⟩
  | append_singleton texts text ih =>
    rw [List.map_append, List.map_singleton, ← List.append_assoc] at h
    rcases p.parent?_cases with ⟨-, hnil | hroot⟩ | ⟨above, c, hsome, hcomponents, -⟩
    · rw [hnil] at h
      simp at h
    · rw [hroot] at h
      have hlast := congrArg List.getLast? h
      simp at hlast
    · rw [hcomponents] at h
      obtain ⟨q, hq, hfront⟩ := ih (List.append_inj_left' h rfl)
      rw [List.length_append]
      exact ⟨q, by simpa [climbFolders, hsome] using hq, hfront⟩

namespace Path

/-- Whether a path ends in a number of names, one after the other. -/
def endsInNames (p : Path) (count : Nat) : Bool :=
  count ≤ p.components.length &&
    (p.components.drop (p.components.length - count)).all Component.isName

theorem exists_texts {components : List Component} (h : components.all Component.isName = true) :
    ∃ texts : List String, components = texts.map .name := by
  induction components with
  | nil => exact ⟨[], rfl⟩
  | cons c components ih =>
    rw [List.all_cons, Bool.and_eq_true] at h
    obtain ⟨text, rfl⟩ := Component.exists_of_isName h.1
    obtain ⟨texts, rfl⟩ := ih h.2
    exact ⟨text :: texts, rfl⟩

theorem endsInNames_iff {p : Path} {count : Nat} :
    p.endsInNames count = true ↔
      ∃ (front : List Component) (texts : List String),
        p.components = front ++ texts.map .name ∧ texts.length = count := by
  rw [endsInNames, Bool.and_eq_true, decide_eq_true_eq]
  constructor
  · rintro ⟨hcount, hnames⟩
    obtain ⟨texts, htexts⟩ := exists_texts hnames
    refine ⟨p.components.take (p.components.length - count), texts, ?_, ?_⟩
    · rw [← htexts, List.take_append_drop]
    · have hlength := congrArg List.length htexts
      rw [List.length_drop, List.length_map] at hlength
      omega
  · rintro ⟨front, texts, hcomponents, rfl⟩
    rw [hcomponents, List.length_append, List.length_map, Nat.add_sub_cancel, List.drop_left]
    exact ⟨Nat.le_add_left _ _, by simp [Component.isName]⟩

/-- An absolute path through names ends in all of them. -/
theorem endsInNames_ofNames {names : List EntryName} {count : Nat} (h : count ≤ names.length) :
    (ofNames names).endsInNames count = true := by
  refine endsInNames_iff.2 ⟨.root :: (names.take (names.length - count)).map (.name ·.text),
    (names.drop (names.length - count)).map (·.text), ?_, ?_⟩
  · rw [components_ofNames, List.map_map, List.cons_append]
    show _ = Component.root :: (_ ++ (names.drop _).map fun name => .name name.text)
    rw [← List.map_append, List.take_append_drop]
  · rw [List.length_map, List.length_drop]
    omega

theorem isStep_of_mem_components {p : Path} {text : String} (h : .name text ∈ p.components) :
    IsStep text := by
  have hmem : Component.name text ∈ p.segments.filterMap Component.ofSegment? := by
    unfold components at h
    split at h
    · simpa using h
    · split at h
      · simpa using h
      · exact h
  obtain ⟨segment, hsegment, hname⟩ := List.mem_filterMap.1 hmem
  have hslash := noSlash_of_mem_segments hsegment
  unfold Component.ofSegment? at hname
  split at hname
  · cases hname
  · next hempty =>
    split at hname
    · cases hname
    · next hhere =>
      split at hname
      · cases hname
      · next hup =>
        obtain rfl := Component.name.inj (Option.some.inj hname)
        exact ⟨hempty, hhere, hup, hslash⟩

theorem head?_components {p : Path} : p.components.head? = some .root ↔ p.isAbsolute = true := by
  unfold components
  split
  · next h => simp [h]
  · next h =>
    split
    · simp [h]
    · rw [iff_false_right h]
      exact fun hhead =>
        Component.root_notMem_ofSegment? p.segments (List.mem_of_head? hhead)

/-- Only the empty path has no components. -/
theorem spelling_of_components {p : Path} (h : p.components = []) : p.spelling = "" := by
  unfold components at h
  split at h
  · cases h
  · next habsolute =>
    split at h
    · cases h
    · next hhere =>
      have hne : p.segments ≠ [] := by
        simpa [segments, splitNames] using cutAt_ne_nil '/' p.spelling.toList
      obtain ⟨first, others, hsegments⟩ := List.exists_cons_of_ne_nil hne
      have hidle : isIdle first = true := by
        rw [← Component.ofSegment?_eq_none_iff]
        exact List.filterMap_eq_nil_iff.1 h first (by rw [hsegments]; exact List.mem_cons_self)
      rw [hsegments, List.head?_cons, Option.some.injEq] at hhere
      rw [isIdle, Bool.or_eq_true, decide_eq_true_eq, decide_eq_true_eq, or_iff_left hhere]
        at hidle
      exact spelling_of_head? (Bool.eq_false_iff.2 habsolute)
        (by rw [hsegments, hidle, List.head?_cons])

theorem filterMap_segment?_components (p : Path) :
    p.components.filterMap Component.segment? = p.segments.filter (!isIdle ·) := by
  have hsegments : (p.segments.filterMap Component.ofSegment?).filterMap Component.segment? =
      p.segments.filter (!isIdle ·) := by
    rw [List.filterMap_filterMap, ← List.filterMap_eq_filter]
    congr 1
    funext segment
    rw [Component.bind_segment?_ofSegment?, Option.guard]
    cases isIdle segment <;> rfl
  unfold components
  split
  · exact hsegments
  · split <;> exact hsegments

end Path

/-- From an absolute path through names, only names can be taken off. -/
theorem le_length_of_climbFolders {names : List EntryName} {count : Nat} {q : Path}
    (h : climbFolders count (.ofNames names) = some q) : count ≤ names.length := by
  obtain ⟨back, hcomponents, rfl, hroot⟩ := components_of_climbFolders h
  rw [Path.components_ofNames] at hcomponents
  cases hfront : q.components with
  | nil =>
    rw [hfront, List.nil_append] at hcomponents
    exact absurd (hcomponents ▸ List.mem_cons_self) hroot
  | cons c front =>
    rw [hfront, List.cons_append] at hcomponents
    have hlength := congrArg List.length (List.cons.inj hcomponents).2
    rw [List.length_map, List.length_append] at hlength
    omega

namespace FileTree

variable {tree : FileTree}

/-- Where components lead. -/
def followComponents (tree : FileTree) (components : List Component) :
    Except ReadError (List EntryName) :=
  tree.follow (if components.head? = some .root then [] else tree.workingFolder)
    (components.filterMap Component.segment?)

theorem followComponents_append {front back : List Component} (h : .root ∉ back) :
    tree.followComponents (front ++ back) = (tree.followComponents front).bind
      (tree.follow · (back.filterMap Component.segment?)) := by
  have hhead : (front ++ back).head? = some .root ↔ front.head? = some .root := by
    cases front with
    | nil => simpa using fun hback => h (List.mem_of_head? hback)
    | cons c front => rfl
  simp only [followComponents, hhead, List.filterMap_append, follow_append]

/-- One step from a place: there must be a folder, and it leads at most one name further. -/
theorem follow_cons_eq_ok {names reached : List EntryName} {segment : String}
    {rest : List String} (h : tree.follow names (segment :: rest) = .ok reached) :
    ∃ children next, tree.at? names = some (.folder children) ∧
      tree.follow next rest = .ok reached ∧
      (Path.isIdle segment = true ∧ next = names ∨ segment = ".." ∧ next = names.dropLast ∨
        ∃ child ∈ children, child.1.text = segment ∧ next = names ++ [child.1]) := by
  rw [follow] at h
  split at h
  · next children hat =>
    refine ⟨children, ?_⟩
    split at h
    · next hidle => exact ⟨names, hat, h, .inl ⟨hidle, rfl⟩⟩
    · split at h
      · next hup => exact ⟨names.dropLast, hat, h, .inr (.inl ⟨hup, rfl⟩)⟩
      · split at h
        · next child hchild =>
          refine ⟨names ++ [child.1], hat, h, .inr (.inr ⟨child, ?_, ?_, rfl⟩)⟩
          · exact List.mem_of_find?_eq_some hchild
          · simpa using List.find?_some hchild
        · cases h
  · cases h
  · cases h

/-- Segments that lead somewhere have no null character in them. -/
theorem noNull_of_follow {names reached : List EntryName} {segments : List String}
    (h : tree.follow names segments = .ok reached) :
    ∀ segment ∈ segments, '\x00' ∉ segment.toList := by
  induction segments generalizing names with
  | nil => exact List.forall_mem_nil _
  | cons segment rest ih =>
    obtain ⟨children, next, -, hrest, hstep⟩ := follow_cons_eq_ok h
    refine List.forall_mem_cons.2 ⟨?_, ih hrest⟩
    rcases hstep with ⟨hidle, -⟩ | ⟨rfl, -⟩ | ⟨child, -, rfl, -⟩
    · rw [Path.isIdle, Bool.or_eq_true, decide_eq_true_eq, decide_eq_true_eq] at hidle
      rcases hidle with rfl | rfl <;> decide
    · decide
    · exact child.1.isEntryName.2.2.2.2

theorem follow_cons_of_isIdle {names : List EntryName} {segment : String}
    (hidle : Path.isIdle segment = true) {children : List (EntryName × Entry)}
    (hat : tree.at? names = some (.folder children)) (rest : List String) :
    tree.follow names (segment :: rest) = tree.follow names rest := by
  rw [Path.isIdle] at hidle
  rw [follow, hat]
  dsimp only
  rw [if_pos hidle]

/-- Without its idle segments a path leads to the same place. -/
theorem follow_filter {names reached : List EntryName} {segments : List String}
    (h : tree.follow names segments = .ok reached) :
    tree.follow names (segments.filter (!Path.isIdle ·)) = .ok reached := by
  induction segments generalizing names with
  | nil => exact h
  | cons segment rest ih =>
    by_cases hidle : Path.isIdle segment = true
    · obtain ⟨children, -, hat, -⟩ := follow_cons_eq_ok h
      rw [follow_cons_of_isIdle hidle hat] at h
      rw [List.filter_cons_of_neg (by simp [hidle])]
      exact ih h
    · rw [← List.singleton_append, follow_append] at h
      obtain ⟨next, hnext, hrest⟩ := bind_eq_ok_iff.1 h
      rw [List.filter_cons_of_pos (by simp [hidle]), ← List.singleton_append, follow_append, hnext]
      exact ih hrest

/-- Idle segments make no difference on the way to a folder. -/
theorem follow_of_filter {names reached : List EntryName} {segments : List String}
    {children : List (EntryName × Entry)} (hat : tree.at? reached = some (.folder children))
    (h : tree.follow names (segments.filter (!Path.isIdle ·)) = .ok reached) :
    tree.follow names segments = .ok reached := by
  induction segments generalizing names with
  | nil => exact h
  | cons segment rest ih =>
    by_cases hidle : Path.isIdle segment = true
    · rw [List.filter_cons_of_neg (by simp [hidle])] at h
      -- an idle segment needs a folder: the next step starts from one, or the end is one
      have hfolder : ∃ inner, tree.at? names = some (.folder inner) := by
        cases hfilter : rest.filter (!Path.isIdle ·) with
        | nil =>
          rw [hfilter] at h
          exact ⟨children, Except.ok.inj h ▸ hat⟩
        | cons first others =>
          rw [hfilter] at h
          obtain ⟨inner, -, hinner, -⟩ := follow_cons_eq_ok h
          exact ⟨inner, hinner⟩
      obtain ⟨inner, hinner⟩ := hfolder
      rw [follow_cons_of_isIdle hidle hinner]
      exact ih h
    · rw [List.filter_cons_of_pos (by simp [hidle]), ← List.singleton_append,
        follow_append] at h
      obtain ⟨next, hnext, hrest⟩ := bind_eq_ok_iff.1 h
      rw [← List.singleton_append, follow_append, hnext]
      exact ih hrest

/-- A path leads where its components lead. -/
theorem followComponents_of_baseOf {p : Path} {names : List EntryName}
    (h : tree.baseOf p = .ok names) : tree.followComponents p.components = .ok names := by
  have hstart : (if p.components.head? = some .root then [] else tree.workingFolder) =
      if p.isAbsolute = true then [] else tree.workingFolder := by
    simp only [Path.head?_components]
  rw [followComponents, hstart, Path.filterMap_segment?_components]
  unfold baseOf at h
  split at h
  · next hempty =>
    obtain rfl : p = ⟨""⟩ := congrArg Path.mk hempty
    exact h
  · unfold locate at h
    split at h
    · cases h
    · split at h
      · cases h
      · exact follow_filter h

/-- Where the components of a path lead to a folder, the path does so too. -/
theorem baseOf_of_followComponents {p : Path} {names : List EntryName}
    {children : List (EntryName × Entry)} (hat : tree.at? names = some (.folder children))
    (h : tree.followComponents p.components = .ok names) : tree.baseOf p = .ok names := by
  have hstart : (if p.components.head? = some .root then [] else tree.workingFolder) =
      if p.isAbsolute = true then [] else tree.workingFolder := by
    simp only [Path.head?_components]
  rw [followComponents, hstart, Path.filterMap_segment?_components] at h
  have hfollow := follow_of_filter hat h
  rw [baseOf]
  split
  · next hempty =>
    obtain rfl : p = ⟨""⟩ := congrArg Path.mk hempty
    exact h
  · next hne =>
    -- a null character would stand in a segment that has been followed
    have hnull : '\x00' ∉ p.spelling.toList := by
      intro hmem
      rw [← joinPieces_cutAt '/' p.spelling.toList] at hmem
      rcases mem_joinPieces hmem with hslash | ⟨piece, hpiece, hc⟩
      · exact absurd hslash (by decide)
      · refine noNull_of_follow hfollow (String.ofList piece) (List.mem_map_of_mem hpiece) ?_
        rwa [String.toList_ofList]
    rw [locate, if_neg hne, if_neg (by simpa using hnull)]
    exact hfollow

/-! ### Where climbs lead -/

/-- Names lead down, so taking them off leads up. -/
theorem baseOf_of_endsInNames {p : Path} {names : List EntryName} (hp : tree.locate p = .ok names)
    {count : Nat} (hcount : 0 < count) (h : p.endsInNames count = true) :
    count ≤ names.length ∧ ∃ q, climbFolders count p = some q ∧
      tree.baseOf q = .ok (names.take (names.length - count)) := by
  obtain ⟨front, texts, hcomponents, rfl⟩ := Path.endsInNames_iff.1 h
  obtain ⟨q, hq, hfront⟩ := exists_climbFolders hcomponents
  have hnames := followComponents_of_baseOf (baseOf_of_locate hp)
  rw [hcomponents, followComponents_append (by simp)] at hnames
  obtain ⟨place, hplace, hdown⟩ := bind_eq_ok_iff.1 hnames
  have htexts : (texts.map Component.name).filterMap Component.segment? = texts := by
    rw [List.filterMap_map]
    exact List.filterMap_some
  rw [htexts] at hdown
  have hsteps : ∀ text ∈ texts, Path.IsStep text := by
    intro text htext
    refine Path.isStep_of_mem_components (p := p) ?_
    rw [hcomponents]
    exact List.mem_append_right front (List.mem_map_of_mem htext)
  obtain ⟨more, rfl, hmore⟩ := follow_steps hsteps hdown
  have hlength : more.length = texts.length := by rw [← hmore, List.length_map]
  obtain ⟨first, others, rfl⟩ := List.exists_cons_of_ne_nil (List.ne_nil_of_length_pos hcount)
  obtain ⟨children, -, hat, -⟩ := follow_cons_eq_ok hdown
  rw [← hlength, List.length_append, Nat.add_sub_cancel, List.take_left]
  exact ⟨Nat.le_add_left _ _, q, hlength ▸ hq,
    baseOf_of_followComponents hat (hfront ▸ hplace)⟩

/-- Only names lead further down. -/
theorem length_le_of_follow {components : List Component} {names reached : List EntryName}
    (h : tree.follow names (components.filterMap Component.segment?) = .ok reached) :
    reached.length ≤ names.length + components.countP Component.isName := by
  induction components generalizing names with
  | nil =>
    obtain rfl := Except.ok.inj h
    exact Nat.le_add_right _ _
  | cons c components ih =>
    cases c with
    | root => exact ih h
    | here => exact ih h
    | up =>
      obtain ⟨children, next, -, hrest, hstep⟩ := follow_cons_eq_ok h
      have hnext : next.length ≤ names.length := by
        rcases hstep with ⟨hidle, -⟩ | ⟨-, rfl⟩ | ⟨child, -, htext, -⟩
        · exact absurd hidle (by decide)
        · exact List.length_dropLast ▸ Nat.sub_le _ _
        · exact absurd htext child.1.isEntryName.2.2.1
      exact (ih hrest).trans (Nat.add_le_add_right hnext _)
    | name text =>
      obtain ⟨children, next, -, hrest, hstep⟩ := follow_cons_eq_ok h
      have hnext : next.length ≤ names.length + 1 := by
        rcases hstep with ⟨-, rfl⟩ | ⟨-, rfl⟩ | ⟨child, -, -, rfl⟩
        · exact Nat.le_succ _
        · exact List.length_dropLast ▸ (Nat.sub_le _ _).trans (Nat.le_succ _)
        · exact List.length_append.le
      have hle := ih hrest
      rw [List.countP_cons_of_pos rfl]
      omega

/-- A climb that takes off anything but names does not lead up that far. -/
theorem length_lt_of_climbFolders {p q : Path} {names place : List EntryName}
    (hp : tree.locate p = .ok names) {count : Nat} (h : climbFolders count p = some q)
    (hq : tree.baseOf q = .ok place) (hnames : p.endsInNames count = false) :
    names.length < place.length + count := by
  obtain ⟨back, hcomponents, rfl, hroot⟩ := components_of_climbFolders h
  have hfollow := followComponents_of_baseOf (baseOf_of_locate hp)
  rw [hcomponents, followComponents_append hroot, followComponents_of_baseOf hq] at hfollow
  -- what was taken off leads back down, by one name for each name in it and no further
  have hlength : names.length ≤ place.length + back.countP Component.isName :=
    length_le_of_follow hfollow
  have hne : back.countP Component.isName ≠ back.length := by
    intro hall
    obtain ⟨texts, htexts⟩ := Path.exists_texts (List.all_eq_true.2 (List.countP_eq_length.1 hall))
    rw [← Bool.not_eq_true, Path.endsInNames_iff] at hnames
    exact hnames ⟨q.components, texts, by rw [hcomponents, htexts], by rw [htexts, List.length_map]⟩
  have hle := List.countP_le_length (p := Component.isName) (l := back)
  omega

end FileTree

end SymbolAtlas
