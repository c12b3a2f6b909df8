import SymbolAtlas.Proofs.FaultFinding
import SymbolAtlas.Proofs.Offsets
import SymbolAtlas.Proofs.ReferenceIndex
import SymbolAtlas.Proofs.SyntaxErrors
import SymbolAtlas.Proofs.Words
import SymbolAtlas.Request.Check

/-!
# Diagnostics point at what they are about

A module that does not compile has one diagnostic, an error in a module that is reached from
it.  When the error has a place, it covers a word of a line of that module: the name that is
bound again or not found, the first name of the import that leads nowhere, or the first
character of what cannot be read.  A module that compiles has a warning for each import whose
name occurs nowhere else, and no other diagnostics.

## Main Definitions

* `Covers`: a span covers a word in a line of a text.
* `Offends`: the characters that a syntax error is about.
* `Fault.PointsAt`: the word at which a fault points.
* `Fault.Placeless`: a fault that points at no word.
* `Unused`: a bound identifier occurs nowhere else.
* `Compilation.Justified`: the diagnostics of a module say what is true of it.

## Main Statements

* `Offends.covers`: syntax errors stand where what they are about begins.
* `Compilation.Finds.pointsAt`: faults that are found point at words.
* `Linked.unusedImports_eq`: the warnings for a linked module.
* `checkModule_justified`: the diagnostics of every module are justified.
-/

namespace SymbolAtlas

/-! ## Words in lines -/

/-- A span covers a word in a line of a text. -/
structure Covers (text : String) (span : Span) (word : String) : Prop where
  nonempty : span.start < span.stop
  inLine : ∃ line, lineText text span.line = .ok line ∧ span.stop ≤ line.length
  holds : holds text span word = true

theorem covers_of_holds {text : String} {span : Span} {word : String}
    (h : holds text span word = true) (hword : word.toList ≠ []) : Covers text span word := by
  obtain ⟨front, back, hline, hstart, hlength⟩ := holds_iff.1 h
  have hpos : 0 < word.length := by
    rw [← String.length_toList]
    exact List.length_pos_iff.2 hword
  rw [Span.length] at hlength
  refine ⟨by omega, ⟨_, by rw [lineText, hline], ?_⟩, h⟩
  simp only [String.length_ofList, List.length_append, String.length_toList]
  omega

/-- An identifier token is covered by its extent. -/
theorem covers_identifier {text : String} {tokens : List Token} (h : tokenize text = .ok tokens)
    {t : Token} (ht : t ∈ tokens) (hkind : t.kind = .identifier) :
    Covers text t.identifier.span t.identifier.text :=
  covers_of_holds (holds_identifier h ht hkind) (ne_nil_of_mem_tokenize h ht)

section Outlines

variable {text : String} {o : Outline}

/-- The identifiers that bind names are covered by their extents. -/
theorem covers_of_mem_bindings (h : Outline.parse text = .ok o) {i : Identifier}
    (hi : i ∈ o.bindings) : Covers text i.span i.text := by
  obtain ⟨tokens, phrases, htokens, hphrases, rfl⟩ := parse_eq_ok_iff.1 h
  have hmem : i ∈ (outlineOf phrases).identifiers := by
    rcases List.mem_append.1 hi with hi | hi
    · obtain ⟨d, hd, rfl⟩ := List.mem_map.1 hi
      exact name_mem_identifiers hd
    · obtain ⟨item, hitem, rfl⟩ := List.mem_map.1 hi
      obtain ⟨s, hs, hitem⟩ := List.mem_flatMap.1 hitem
      exact binding_mem_identifiers hs hitem
  rw [identifiers_eq_filter htokens hphrases] at hmem
  obtain ⟨t, ht, rfl⟩ := List.mem_map.1 hmem
  obtain ⟨ht, hkind⟩ := List.mem_filter.1 ht
  exact covers_identifier htokens ht (of_decide_eq_true hkind).1

/-- The names that imports take are covered by their extents. -/
theorem covers_of_mem_items (h : Outline.parse text = .ok o) {s : ImportStatement}
    (hs : s ∈ o.imports) {item : ImportItem} (hitem : item ∈ s.items) :
    Covers text item.name.span item.name.text := by
  obtain ⟨tokens, phrases, htokens, hphrases, rfl⟩ := parse_eq_ok_iff.1 h
  obtain ⟨t, ht, hkind, hname⟩ := hphrases.exists_token_of_item hs hitem
  rw [hname]
  exact covers_identifier htokens ht hkind

end Outlines

/-- A character that is no blank is covered by its position. -/
theorem covers_char {text : String} {front back : List Char} {c : Char}
    (htext : text.toList = front ++ c :: back) (hc : isBlank c = false) :
    Covers text (.ofPosition (.behind front)) (String.ofList [c]) := by
  have hlf : c ≠ '\n' := by
    rintro rfl
    cases hc
  have hcr : ∀ more, c = '\r' → back ≠ '\n' :: more := by
    rintro more rfl
    cases hc
  have hextent : Span.ofName (.behind front) (String.ofList [c]) = .ofPosition (.behind front) := by
    rw [Span.ofName, String.length_ofList]
    rfl
  have hholds := (standsInLine_char front hlf hcr).holds
  rw [List.singleton_append, ← htext, String.ofList_toList, Cursor.position_advanceAll,
    hextent] at hholds
  exact covers_of_holds hholds (by simp)

/-! ## What syntax errors are about -/

theorem isBlank_of_firstLexeme {c : Char} {rest : List Char} {lexeme : Lexeme}
    (h : firstLexeme c rest = some lexeme) (hkind : lexeme.kind ≠ none) : isBlank c = false := by
  by_contra hblank
  rw [Bool.not_eq_false] at hblank
  unfold firstLexeme at h
  rw [if_pos hblank] at h
  obtain rfl := Option.some.inj h
  exact hkind rfl

theorem LexedAs.isBlank_eq_false {text : List Char} {stretches : List Stretch}
    (h : LexedAs text stretches) {s : Stretch} (hs : s ∈ stretches) (hkind : s.kind ≠ none)
    {c : Char} {rest : List Char} (hchars : s.chars = c :: rest) : isBlank c = false := by
  induction h with
  | nil => cases hs
  | cons first _ ih =>
    rcases List.mem_cons.1 hs with rfl | hs
    · obtain ⟨rfl, -⟩ := List.cons.inj hchars
      exact isBlank_of_firstLexeme first hkind
    · exact ih hs

/-- Tokens do not begin with blanks. -/
theorem isBlank_of_mem_tokenize {text : String} {tokens : List Token}
    (h : tokenize text = .ok tokens) {t : Token} (ht : t ∈ tokens) {c : Char} {rest : List Char}
    (hlexeme : t.lexeme.toList = c :: rest) : isBlank c = false := by
  obtain ⟨stretches, hlexed, rfl⟩ := tokenize_eq_ok_iff.1 h
  obtain ⟨front, s, back, rfl, heq, hkind⟩ := exists_stretch_of_mem_tokensOf ht
  rw [heq, String.toList_ofList] at hlexeme
  exact hlexed.isBlank_eq_false (by simp) (by simp [hkind]) hlexeme

theorem Unclosed.isBlank_eq_false {c : Char} {rest : List Char} (h : Unclosed (c :: rest)) :
    isBlank c = false := by
  cases h with
  | quote => rfl
  | comment => rfl

theorem ReadsTo.append_eq {text left : List Char} {stretches : List Stretch}
    (h : ReadsTo text stretches left) : joined stretches ++ left = text := by
  induction h with
  | here => rfl
  | step first others ih => rw [joined_cons, List.append_assoc, ih, first.append_eq]

/-- The position of a token covers its first character. -/
theorem covers_token {text : String} {tokens : List Token} (h : tokenize text = .ok tokens)
    {t : Token} (ht : t ∈ tokens) {first : Char} {rest : List Char}
    (hlexeme : t.lexeme.toList = first :: rest) :
    Covers text (.ofPosition t.position) (String.ofList [first]) := by
  obtain ⟨front, back, htext, -, hstart⟩ := exists_front_of_mem_tokenize h ht
  rw [Token.position, hstart, Cursor.position_advanceAll]
  have hsplit : text.toList = front.toList ++ first :: (rest ++ back.toList) := by
    rw [htext, String.toList_append, String.toList_append, hlexeme, List.cons_append]
  exact covers_char hsplit (isBlank_of_mem_tokenize h ht hlexeme)

/-- The characters that a syntax error in a text is about. -/
inductive Offends (text : String) : SyntaxError → List Char → Prop where
  /-- A string or a comment is never closed. -/
  | unread {stretches : List Stretch} {left : List Char}
      (reads : ReadsTo text.toList stretches left) (unclosed : Unclosed left) :
      Offends text (.unrecognised (.behind (joined stretches))) left
  /-- A token is the first with which the tokens cannot be continued to a module. -/
  | unexpected {front back : List Token} {t : Token} {what : Expectation}
      (tokenized : tokenize text = .ok (front ++ t :: back)) (viable : Viable front)
      (dead : ¬ Viable (front ++ [t])) :
      Offends text (.unexpectedToken t.position t.lexeme what) t.lexeme.toList
  /-- Behind a module, a brace closes what is not open. -/
  | unmatched {items back : List Token} {t : Token}
      (tokenized : tokenize text = .ok (items ++ t :: back)) (before : IsModule items)
      (closes : t.kind = .closeBrace) :
      Offends text (.unmatchedBrace t.position) t.lexeme.toList
  /-- Behind a module, a brace opens what is never closed. -/
  | unclosed {items inner : List Token} {t : Token}
      (tokenized : tokenize text = .ok (items ++ t :: inner)) (before : IsModule items)
      (opens : t.kind = .openBrace) (unclosed : ¬ Closes inner) :
      Offends text (.unclosedBrace t.position) t.lexeme.toList

/-- The place of a syntax error covers the first character that it is about. -/
theorem Offends.covers {text : String} {e : SyntaxError} {first : Char} {rest : List Char}
    (h : Offends text e (first :: rest)) {place : Position} (hplace : e.position? = some place) :
    Covers text (.ofPosition place) (String.ofList [first]) := by
  generalize hchars : first :: rest = chars at h
  cases h with
  | unread reads unclosed =>
    obtain rfl := Option.some.inj hplace
    subst hchars
    exact covers_char reads.append_eq.symm unclosed.isBlank_eq_false
  | unexpected tokenized | unmatched tokenized | unclosed tokenized =>
    obtain rfl := Option.some.inj hplace
    exact covers_token tokenized (by simp) hchars.symm

/-- Tokens that are rejected have one that the error is about, unless it has no place. -/
theorem Rejected.exists_offends {text : String} {tokens : List Token} {e : SyntaxError}
    (h : Rejected tokens e) (htokens : tokenize text = .ok tokens) {place : Position}
    (hplace : e.position? = some place) : ∃ t ∈ tokens, Offends text e t.lexeme.toList := by
  cases h with
  | @unexpected items front back t what kinds _ _ viable dead =>
    rw [← List.append_assoc] at htokens dead
    exact ⟨t, by simp, .unexpected htokens viable dead⟩
  | ended => cases hplace
  | @unmatched _ _ t before closes _ => exact ⟨t, by simp, .unmatched htokens before closes⟩
  | @unclosed _ _ t before opens unclosed _ =>
    exact ⟨t, by simp, .unclosed htokens before opens unclosed⟩

theorem Unclosed.ne_nil {chars : List Char} (h : Unclosed chars) : chars ≠ [] := by
  cases h <;> exact List.cons_ne_nil _ _

/-- The error of a text that is not well formed is about some of its characters, unless it has
no place. -/
theorem exists_offends {text : String} {e : SyntaxError} (h : Outline.parse text = .error e)
    {place : Position} (hplace : e.position? = some place) :
    ∃ first rest, Offends text e (first :: rest) := by
  suffices hoffends : ∃ chars, chars ≠ [] ∧ Offends text e chars by
    obtain ⟨chars, hchars, hoffends⟩ := hoffends
    obtain ⟨first, rest, rfl⟩ := List.exists_cons_of_ne_nil hchars
    exact ⟨first, rest, hoffends⟩
  unfold Outline.parse at h
  cases htokens : tokenize text with
  | error e' =>
    rw [htokens] at h
    obtain rfl := Except.error.inj h
    obtain ⟨stretches, left, hreads, hunclosed, rfl⟩ := tokensFrom_eq_error_iff.1 htokens
    rw [Cursor.position_advanceAll]
    exact ⟨left, hunclosed.ne_nil, .unread hreads hunclosed⟩
  | ok tokens =>
    rw [htokens] at h
    have hrejected := rejected_iff.2 (verdict_eq_error_iff.2 h)
    obtain ⟨t, ht, hoffends⟩ := hrejected.exists_offends htokens hplace
    exact ⟨_, ne_nil_of_mem_tokenize htokens ht, hoffends⟩

/-! ## What faults point at -/

/-- The word at which a fault points in the text of its module. -/
def Fault.PointsAt (source word : String) : Fault → Prop
  | malformed _ cause => ∃ first rest, Offends source cause (first :: rest) ∧
      word = String.ofList [first]
  | duplicateSymbol _ name _ => word = name
  | moduleNotFound _ package span => ∃ outline, Outline.parse source = .ok outline ∧
      ∃ s ∈ outline.imports, s.package = package ∧ s.first.name = ⟨word, span⟩
  | symbolNotFound _ _ name _ => word = name
  | importCycle _ _ => False
  | unreadable _ _ => False

/-- A fault that points at no word: no token stands for a cycle of imports, for a file that cannot
be read, or for the end of a text. -/
inductive Fault.Placeless : Fault → Prop where
  | importCycle (path module : Path) : Placeless (.importCycle path module)
  | unreadable (path : Path) (cause : ReadError) : Placeless (.unreadable path cause)
  | unexpectedEnd (path : Path) (expected : Expectation) :
      Placeless (.malformed path (.unexpectedEnd expected))

/-- All other faults have a place. -/
theorem Fault.span?_eq_none_iff {fault : Fault} : fault.span? = none ↔ fault.Placeless := by
  constructor
  · intro hnone
    cases fault with
    | malformed path cause =>
      cases cause with
      | unexpectedEnd expected => exact .unexpectedEnd path expected
      | unrecognised | unexpectedToken | unmatchedBrace | unclosedBrace => cases hnone
    | importCycle path module => exact .importCycle path module
    | unreadable path cause => exact .unreadable path cause
    | duplicateSymbol | moduleNotFound | symbolNotFound => cases hnone
  · rintro (_ | _ | _)
    · rfl
    · rfl
    · rfl

namespace Compilation

variable {c : Compilation}

/-- A fault that is found points at a word in the text of its module, if it has a place. -/
theorem Finds.pointsAt {fault : Fault} (h : c.Finds fault) {span : Span}
    (hspan : fault.span? = some span) :
    ∃ source word, c.text fault.path = .ok source ∧ fault.PointsAt source word ∧
      Covers source span word := by
  cases h with
  | unreadable => cases hspan
  | importCycle => cases hspan
  | malformed _ text parse =>
    obtain ⟨place, hplace, rfl⟩ := Option.map_eq_some_iff.1 hspan
    obtain ⟨first, rest, hoffends⟩ := exists_offends parse hplace
    exact ⟨_, _, text, ⟨first, rest, hoffends, rfl⟩, hoffends.covers hplace⟩
  | @duplicateSymbol p outline name _ _ outlined again =>
    obtain ⟨source, htext, hparse⟩ := outlined
    obtain ⟨front, back, hbindings, -⟩ := again
    obtain rfl := Option.some.inj hspan
    refine ⟨source, name, htext, rfl, covers_of_mem_bindings (i := ⟨name, _⟩) hparse ?_⟩
    rw [hbindings]
    exact List.mem_append_right _ List.mem_cons_self
  | moduleNotFound _ outlined statement _ =>
    obtain ⟨source, htext, hparse⟩ := outlined
    obtain rfl := Option.some.inj hspan
    exact ⟨source, _, htext, ⟨_, hparse, _, statement, rfl, rfl⟩,
      covers_of_mem_items hparse statement List.mem_cons_self⟩
  | symbolNotFound _ outlined statement _ taken _ _ =>
    obtain ⟨source, htext, hparse⟩ := outlined
    obtain rfl := Option.some.inj hspan
    exact ⟨source, _, htext, rfl, covers_of_mem_items hparse statement taken⟩

end Compilation

/-! ## Unused imports -/

/-- A bound identifier is the only one with its text among some tokens, segments of packages
and names that imports give an alias to aside. -/
def Unused (tokens : List Token) (phrases : List Phrase) (binding : Identifier) : Prop :=
  ∀ t ∈ tokens, t.kind = .identifier → t.lexeme = binding.text → t ∉ hidden (rolesOf phrases) →
    t.identifier = binding

instance (tokens : List Token) (phrases : List Phrase) :
    DecidablePred (Unused tokens phrases) := fun binding =>
  inferInstanceAs (Decidable (∀ t ∈ tokens, t.kind = .identifier → t.lexeme = binding.text →
    t ∉ hidden (rolesOf phrases) → t.identifier = binding))

/-- The warning for an import that is not used. -/
def unusedWarning (file : Path) (binding : Identifier) : Diagnostic where
  file := file
  span := binding.span
  severity := .warning
  code? := some "W0001"
  message := "unused import: '" ++ binding.text ++ "'"
  related := []

/-- An import is used nowhere but where it is bound when its identifier is the only one. -/
theorem IndexesReferences.isUnused_eq {text : String} {tokens : List Token}
    {phrases : List Phrase} {t : SymbolTable} (h : IndexesReferences text tokens phrases t)
    {s : ImportedSymbol} (hs : s ∈ t.imported) :
    isUnused t s = decide (Unused tokens phrases s.identifier) := by
  have hname : s.name ∈ t.names := List.mem_append_right _ (List.mem_map_of_mem hs)
  rw [isUnused, h.exact s.name hname, Bool.eq_iff_iff]
  simp only [List.all_map, List.all_eq_true, List.mem_filter, decide_eq_true_eq, beq_iff_eq,
    Function.comp_apply, and_imp]
  unfold Unused
  constructor
  · intro hall u hu hkind hlexeme hhidden
    have hspan := hall u hu hkind hlexeme hhidden
    exact congrArg₂ Identifier.mk hlexeme hspan
  · intro hall u hu hkind hlexeme hhidden
    exact congrArg Identifier.span (hall u hu hkind hlexeme hhidden)

/-- The warnings for a linked module are those for its unused imports, in order. -/
theorem Linked.unusedImports_eq {config : Config} {tree : FileTree} {m : Module}
    (h : Linked config tree m) {outline : Outline} (hparse : Outline.parse m.source = .ok outline)
    {tokens : List Token} (htokens : tokenize m.source = .ok tokens) {phrases : List Phrase}
    (hphrases : Phrased 0 tokens phrases) :
    unusedImports m = (((outline.imports.flatMap ImportStatement.items).map (·.binding)).filter
      (Unused tokens phrases)).map (unusedWarning m.path) := by
  obtain ⟨tokens', htokens', -, hindexes⟩ := h.indexesReferences
  obtain rfl : tokens' = tokens := Except.ok.inj (htokens'.symm.trans htokens)
  have hbindings : m.table.imported.map (·.identifier) =
      (outline.imports.flatMap ImportStatement.items).map (·.binding) := by
    cases h with
    | intro links linked =>
      obtain ⟨outline', hparse', hresolves, hlinks⟩ := links
      obtain rfl : outline = outline' := Except.ok.inj (hparse.symm.trans hparse')
      rw [map_identifier_of_binds hlinks.imported, map_snd_takenItems hresolves.length_eq]
  have hunused : m.table.imported.filter (isUnused m.table) =
      m.table.imported.filter fun s => decide (Unused tokens' phrases s.identifier) :=
    List.filter_congr fun s hs => (hindexes phrases hphrases).isUnused_eq hs
  rw [← hbindings, List.filter_map, List.map_map, unusedImports, hunused]
  rfl

/-! ## Diagnostics are justified -/

/-- The diagnostics of a module say what is true of it. -/
structure Compilation.Justified (c : Compilation) (report : List Diagnostic) : Prop where
  /-- A fault is the one error, in a module that is reached.  Its place covers the word at which
  it points, and only a fault that points at no word has no place and is reported at the beginning
  of its module. -/
  failure : ∀ fault, c.result = .error fault → ∃ d, report = [d] ∧ d.severity = .error ∧
    d.file = fault.path ∧ c.Reaches d.file ∧ c.Finds fault ∧
    (fault.span? = none ↔ fault.Placeless) ∧ (fault.Placeless → d.span = Span.origin) ∧
    ∀ span, fault.span? = some span → d.span = span ∧
      ∃ source word, c.text d.file = .ok source ∧ fault.PointsAt source word ∧
        Covers source span word
  /-- Without a fault, the imports that are not used have warnings, in their order. -/
  success : ∀ m, c.result = .ok m → c.text c.start = .ok m.source ∧
    ∃ tokens outline, tokenize m.source = .ok tokens ∧ Outline.parse m.source = .ok outline ∧
      (∃ phrases, Phrased 0 tokens phrases) ∧
      ∀ phrases, Phrased 0 tokens phrases →
        report = (((outline.imports.flatMap ImportStatement.items).map (·.binding)).filter
          (Unused tokens phrases)).map (unusedWarning c.start)

/-- The diagnostics of every module are justified. -/
theorem checkModule_justified (c : Compilation) :
    c.Justified (checkModule c.config.compiler c.file c.buffer c.tree).1 := by
  have hreport : (checkModule c.config.compiler c.file c.buffer c.tree).1 = diagnose c.result := rfl
  rw [hreport]
  constructor
  · intro fault hfault
    have hfinds := Compilation.finds_of_result hfault
    refine ⟨.ofFault fault, by rw [hfault]; rfl, rfl, rfl, hfinds.reaches, hfinds,
      Fault.span?_eq_none_iff, ?_, ?_⟩
    · intro hplaceless
      rw [Diagnostic.ofFault, Fault.span?_eq_none_iff.2 hplaceless, Option.getD_none]
    · intro span hspan
      refine ⟨?_, hfinds.pointsAt hspan⟩
      rw [Diagnostic.ofFault, hspan, Option.getD_some]
  · intro m hm
    obtain ⟨hpath, ⟨htext, hlinked⟩, -⟩ := Compilation.result_eq_ok_iff.1 hm
    obtain ⟨tokens, htokens, ⟨phrases, hphrases⟩, -⟩ := hlinked.indexesReferences
    have hparse := parse_eq_ok_iff.2 ⟨tokens, phrases, htokens, hphrases, rfl⟩
    rw [← hpath, hm]
    exact ⟨htext, tokens, _, htokens, hparse, ⟨phrases, hphrases⟩,
      fun phrases' hphrases' => hlinked.unusedImports_eq hparse htokens hphrases'⟩

/-- A module that declares a name twice, and one that imports it. -/
def redeclaringTree : FileTree :=
  ((FileTree.bare ⟨"/w"⟩).write ⟨"/w/a.ol"⟩ (.text "type Shape\ntype Shape")).write ⟨"/w/b.ol"⟩
    (.text "from .a import Shape")

/-- The error is reported for the imported module, at the second declaration. -/
theorem checkModule_justified_redeclared :
    ∃ d, (checkModule Config.default.compiler ⟨"/w/b.ol"⟩ none redeclaringTree).1 = [d] ∧
      d.severity = .error ∧ d.file = ⟨"/w/a.ol"⟩ ∧ d.span = ⟨1, 5, 10⟩ ∧
      Covers "type Shape\ntype Shape" d.span "Shape" := by
  have hfault : Compilation.result ⟨.default, redeclaringTree, ⟨"/w/b.ol"⟩, none⟩ =
      .error (.duplicateSymbol ⟨"/w/a.ol"⟩ "Shape" ⟨1, 5, 10⟩) :=
    eq_error_of_errorOf? (by decide +kernel)
  have hsource : Compilation.text ⟨.default, redeclaringTree, ⟨"/w/b.ol"⟩, none⟩ ⟨"/w/a.ol"⟩ =
      .ok "type Shape\ntype Shape" :=
    eq_ok_of_toOption (by decide +kernel)
  obtain ⟨d, hreport, hseverity, hfile, -, -, -, -, hplace⟩ :=
    (checkModule_justified ⟨.default, redeclaringTree, ⟨"/w/b.ol"⟩, none⟩).failure _ hfault
  obtain ⟨hspan, source, word, htext, hword, hcovers⟩ := hplace _ rfl
  rw [hfile] at htext
  obtain rfl : _ = source := Except.ok.inj (hsource.symm.trans htext)
  obtain rfl : word = "Shape" := hword
  exact ⟨d, hreport, hseverity, hfile, hspan, hspan ▸ hcovers⟩

end SymbolAtlas
