import SymbolAtlas.Proofs.Repeats
import SymbolAtlas.Proofs.Tables

/-!
# Tables with a history

A symbol table is filled by declarations, imports and uses in any order.  The two
ways to bind a name look at what is bound already in opposite orders.  This makes no
difference, because no history binds a name twice: what a name is bound to is the
first symbol of that name that was brought, and it stays so.

## Main Definitions

* `TableStep`, `SymbolTable.after`: a change of a table, and the table after some
  changes.
* `firstBindings`, `recordedUses`: what a history leaves of its symbols and uses.
* `TracksBindings`: a table holds what its history leaves.

## Main Statements

* `SymbolTable.declare_eq`: a declaration is refused by what the name is bound to.
* `SymbolTable.applyTo_of_symbol?`: what one change does to the bindings.
* `SymbolTable.Holds.applyTo`, `SymbolTable.holds_after`: one change and all changes.
* `table_tracksBindings`: whatever its history, a table holds what it leaves.
-/

namespace SymbolAtlas

/-- The declared symbol that a symbol is. -/
def Symbol.declared? : Symbol → Option DeclaredSymbol
  | declared symbol => some symbol
  | imported _ => none

/-- The imported symbol that a symbol is. -/
def Symbol.imported? : Symbol → Option ImportedSymbol
  | declared _ => none
  | imported symbol => some symbol

/-! ## Histories -/

/-- One change of a table. -/
inductive TableStep where
  | declare (symbol : DeclaredSymbol)
  | bindImport (symbol : ImportedSymbol)
  | recordUse (name : String) (span : Span)

namespace TableStep

/-- The table after one more change.  A change that is refused is not made. -/
def applyTo (t : SymbolTable) : TableStep → SymbolTable
  | declare symbol => (t.declare symbol).toOption.getD t
  | bindImport symbol => (t.bindImport symbol).toOption.getD t
  | recordUse name span => t.recordUse name span

/-- The symbol that is brought. -/
def symbol? : TableStep → Option Symbol
  | declare symbol => some (.declared symbol)
  | bindImport symbol => some (.imported symbol)
  | recordUse _ _ => none

/-- The place where a name is recorded as used. -/
def useOf? (name : String) : TableStep → Option Span
  | declare _ => none
  | bindImport _ => none
  | recordUse other span => if other = name then some span else none

end TableStep

/-- The table of a module after some changes. -/
def SymbolTable.after (owner : Path) (steps : List TableStep) : SymbolTable :=
  steps.foldl TableStep.applyTo (.empty owner)

/-- The symbols that were brought, without those whose name was bound already. -/
def firstBindings (steps : List TableStep) : List Symbol :=
  (steps.filterMap TableStep.symbol?).eraseDupsBy (·.name == ·.name)

/-- The places where a name was recorded as used, in the order of recording. -/
def recordedUses (steps : List TableStep) (name : String) : List Span :=
  (steps.filterMap (TableStep.useOf? name)).eraseDups

namespace SymbolTable

variable {t : SymbolTable}

/-! ## Looking names up -/

theorem declared?_eq_some_iff {name : String} {s : DeclaredSymbol} :
    t.declared? name = some s ↔ t.lookup name = some (.declared s) := by
  unfold lookup
  cases t.declared? name <;> simp

/-- Where no name is bound twice, declarations hide no import. -/
theorem imported?_eq_some_iff (h : t.names.Nodup) {name : String} {s : ImportedSymbol} :
    t.imported? name = some s ↔ t.lookup name = some (.imported s) := by
  constructor
  · intro hs
    have hname : s.name = name := by simpa using List.find?_some hs
    rw [← hname]
    exact lookup_imported h (List.mem_of_find?_eq_some hs)
  · intro hs
    unfold lookup at hs
    split at hs
    · cases hs
    · simpa using hs

/-- Where no name is bound twice, it makes no difference that a declaration looks at the imports
first. -/
theorem declare_eq (h : t.names.Nodup) (s : DeclaredSymbol) :
    t.declare s = match t.lookup s.name with
      | some existing => .error existing.span
      | none => .ok { t with declared := t.declared ++ [s] } := by
  unfold declare
  cases himported : t.imported? s.name with
  | some existing => rw [(imported?_eq_some_iff h).1 himported]; rfl
  | none =>
    unfold lookup
    rw [himported]
    cases t.declared? s.name <;> rfl

/-! ## One change -/

/-- The table with one more symbol. -/
def enter (t : SymbolTable) : Symbol → SymbolTable
  | .declared s => t.addDeclared [s]
  | .imported s => t.addImported [s]

theorem nodup_names_enter (h : t.names.Nodup) {symbol : Symbol} (hnew : symbol.name ∉ t.names) :
    (t.enter symbol).names.Nodup := by
  have hcons : (symbol.name :: t.names).Nodup := List.nodup_cons.2 ⟨hnew, h⟩
  have hperm : (t.enter symbol).names.Perm (symbol.name :: t.names) := by
    cases symbol with
    | declared s =>
      show ((t.declared ++ [s]).map _ ++ t.imported.map _).Perm (s.name :: (_ ++ _))
      rw [List.map_append, List.append_assoc]
      exact List.perm_middle
    | imported s =>
      show (t.declared.map _ ++ (t.imported ++ [s]).map _).Perm (s.name :: t.names)
      rw [List.map_append, ← List.append_assoc]
      exact List.perm_append_singleton s.name t.names
  exact hperm.nodup_iff.2 hcons

/-- A symbol is entered unless its name is bound already. -/
theorem applyTo_of_symbol? {step : TableStep} {symbol : Symbol} (h : step.symbol? = some symbol) :
    step.applyTo t = if symbol.name ∈ t.names then t else t.enter symbol := by
  cases step with
  | declare s =>
    obtain rfl := Option.some.inj h
    show (t.declare s).toOption.getD t = if s.name ∈ t.names then t else t.addDeclared [s]
    split
    · next hbound =>
      cases hdeclare : t.declare s with
      | error existing => rfl
      | ok t' => exact absurd hbound (declare_eq_ok_iff.1 hdeclare).1
    · next hnew => rw [declare_eq_ok_iff.2 ⟨hnew, rfl⟩]; rfl
  | bindImport s =>
    obtain rfl := Option.some.inj h
    show (t.bindImport s).toOption.getD t = if s.name ∈ t.names then t else t.addImported [s]
    split
    · next hbound =>
      cases hbind : t.bindImport s with
      | error existing => rfl
      | ok t' => exact absurd hbound (bindImport_eq_ok_iff.1 hbind).1
    · next hnew => rw [bindImport_eq_ok_iff.2 ⟨hnew, rfl⟩]; rfl
  | recordUse name span => cases h

theorem usesOf_recordUse (t : SymbolTable) (name : String) (span : Span) (other : String) :
    (t.recordUse name span).usesOf other =
      if other = name ∧ span ∉ t.usesOf name then t.usesOf name ++ [span] else t.usesOf other :=
  lookup_addUse name other span t.uses

/-! ## All changes -/

/-- A table holds the given symbols, no two of one name. -/
structure Holds (t : SymbolTable) (bound : List Symbol) : Prop where
  declared : t.declared = bound.filterMap Symbol.declared?
  imported : t.imported = bound.filterMap Symbol.imported?
  nodup : t.names.Nodup

theorem Holds.mem_declared {bound : List Symbol} (h : t.Holds bound) {s : DeclaredSymbol} :
    s ∈ t.declared ↔ .declared s ∈ bound := by
  rw [h.declared, List.mem_filterMap]
  constructor
  · rintro ⟨symbol, hsymbol, hs⟩
    cases symbol with
    | declared s' => exact Option.some.inj hs ▸ hsymbol
    | imported s' => cases hs
  · intro hs
    exact ⟨_, hs, rfl⟩

theorem Holds.mem_imported {bound : List Symbol} (h : t.Holds bound) {s : ImportedSymbol} :
    s ∈ t.imported ↔ .imported s ∈ bound := by
  rw [h.imported, List.mem_filterMap]
  constructor
  · rintro ⟨symbol, hsymbol, hs⟩
    cases symbol with
    | declared s' => cases hs
    | imported s' => exact Option.some.inj hs ▸ hsymbol
  · intro hs
    exact ⟨_, hs, rfl⟩

/-- A name is bound to the symbol of this name that the table holds. -/
theorem Holds.lookup_eq_some_iff {bound : List Symbol} (h : t.Holds bound) {name : String}
    {symbol : Symbol} : t.lookup name = some symbol ↔ symbol ∈ bound ∧ symbol.name = name := by
  constructor
  · intro hlookup
    obtain ⟨hname, ⟨s, hs, rfl⟩ | ⟨s, hs, rfl⟩⟩ := lookup_eq_some hlookup
    · exact ⟨h.mem_declared.1 hs, hname⟩
    · exact ⟨h.mem_imported.1 hs, hname⟩
  · rintro ⟨hsymbol, rfl⟩
    cases symbol with
    | declared s => exact lookup_declared h.nodup (h.mem_declared.2 hsymbol)
    | imported s => exact lookup_imported h.nodup (h.mem_imported.2 hsymbol)

theorem Holds.any_name_iff {bound : List Symbol} (h : t.Holds bound) {name : String} :
    bound.any (name == ·.name) = true ↔ name ∈ t.names := by
  rw [← isSome_lookup_iff, Option.isSome_iff_exists, List.any_eq_true]
  exact exists_congr fun symbol => by rw [h.lookup_eq_some_iff, beq_iff_eq, eq_comm]

/-- One change adds the symbol that it brings, unless its name is bound already. -/
theorem Holds.applyTo {bound : List Symbol} (h : t.Holds bound) {step : TableStep}
    {symbol : Symbol} (hstep : step.symbol? = some symbol) :
    (step.applyTo t).Holds
      (if bound.any (symbol.name == ·.name) then bound else bound ++ [symbol]) := by
  rw [applyTo_of_symbol? hstep]
  by_cases hname : symbol.name ∈ t.names
  · rw [if_pos hname, if_pos (h.any_name_iff.2 hname)]
    exact h
  · rw [if_neg hname, if_neg (mt h.any_name_iff.1 hname)]
    refine ⟨?_, ?_, nodup_names_enter h.nodup hname⟩
    · rw [List.filterMap_append, ← h.declared]
      cases symbol with
      | declared s => rfl
      | imported s => exact (List.append_nil _).symm
    · rw [List.filterMap_append, ← h.imported]
      cases symbol with
      | declared s => exact (List.append_nil _).symm
      | imported s => rfl

/-- A symbol that is added is what its name is bound to, and no other name is bound anew. -/
theorem Holds.lookup_applyTo {bound : List Symbol} (h : t.Holds bound) {step : TableStep}
    {symbol : Symbol} (hstep : step.symbol? = some symbol) (hnew : t.lookup symbol.name = none)
    (name : String) : (step.applyTo t).lookup name =
      if name = symbol.name then some symbol else t.lookup name := by
  have hany : ¬ bound.any (symbol.name == ·.name) = true := by
    rw [h.any_name_iff, ← lookup_eq_none_iff]
    exact hnew
  have hnext := h.applyTo hstep
  rw [if_neg hany] at hnext
  split
  · next hname =>
    exact hnext.lookup_eq_some_iff.2 ⟨List.mem_append_right bound List.mem_cons_self, hname.symm⟩
  · next hname =>
    ext other
    rw [hnext.lookup_eq_some_iff, h.lookup_eq_some_iff, List.mem_append, List.mem_singleton]
    refine and_congr_left fun hother => or_iff_left ?_
    rintro rfl
    exact hname hother.symm

theorem after_concat (owner : Path) (steps : List TableStep) (step : TableStep) :
    after owner (steps ++ [step]) = step.applyTo (after owner steps) :=
  List.foldl_append

theorem owner_after (owner : Path) (steps : List TableStep) :
    (after owner steps).owner = owner := by
  induction steps using List.reverseRecOn with
  | nil => rfl
  | append_singleton steps step ih =>
    rw [after_concat]
    cases hstep : step.symbol? with
    | some symbol =>
      rw [applyTo_of_symbol? hstep]
      split
      · exact ih
      · cases symbol <;> exact ih
    | none =>
      cases step with
      | declare s => cases hstep
      | bindImport s => cases hstep
      | recordUse name span => exact ih

/-- A table holds the first symbol of each name that was brought. -/
theorem holds_after (owner : Path) (steps : List TableStep) :
    (after owner steps).Holds (firstBindings steps) := by
  induction steps using List.reverseRecOn with
  | nil => exact ⟨rfl, rfl, List.nodup_nil⟩
  | append_singleton steps step ih =>
    rw [after_concat, firstBindings, List.filterMap_append]
    cases hstep : step.symbol? with
    | some symbol =>
      show (step.applyTo (after owner steps)).Holds _
      rw [List.filterMap_cons_some hstep, List.filterMap_nil, eraseDupsBy_concat]
      exact ih.applyTo hstep
    | none =>
      rw [List.filterMap_cons_none hstep, List.filterMap_nil, List.append_nil]
      cases step with
      | declare s => cases hstep
      | bindImport s => cases hstep
      | recordUse name span => exact ⟨ih.declared, ih.imported, ih.nodup⟩

/-- Binding a name records no use. -/
theorem usesOf_applyTo_of_symbol? {step : TableStep} {symbol : Symbol}
    (h : step.symbol? = some symbol) (name : String) :
    (step.applyTo t).usesOf name = t.usesOf name := by
  rw [applyTo_of_symbol? h]
  split
  · rfl
  · cases symbol <;> rfl

/-- A table has the places that were recorded for a name, each once and in the order in which
they were recorded first. -/
theorem usesOf_after (owner : Path) (steps : List TableStep) (name : String) :
    (after owner steps).usesOf name = recordedUses steps name := by
  induction steps using List.reverseRecOn with
  | nil => rfl
  | append_singleton steps step ih =>
    rw [after_concat, recordedUses, List.filterMap_append]
    cases step with
    | declare s =>
      have hlist : [TableStep.declare s].filterMap (TableStep.useOf? name) = [] := rfl
      rw [usesOf_applyTo_of_symbol? rfl, ih, hlist, List.append_nil, recordedUses]
    | bindImport s =>
      have hlist : [TableStep.bindImport s].filterMap (TableStep.useOf? name) = [] := rfl
      rw [usesOf_applyTo_of_symbol? rfl, ih, hlist, List.append_nil, recordedUses]
    | recordUse other span =>
      show ((after owner steps).recordUse other span).usesOf name = _
      rw [usesOf_recordUse]
      by_cases hname : name = other
      · subst hname
        have hlist :
            [TableStep.recordUse name span].filterMap (TableStep.useOf? name) = [span] := by
          simp [TableStep.useOf?]
        rw [hlist, List.eraseDups, eraseDupsBy_concat, ← List.eraseDups, ← recordedUses, ih]
        simp only [List.any_beq, true_and, List.contains_iff_mem, ite_not]
      · have hlist : [TableStep.recordUse other span].filterMap (TableStep.useOf? name) = [] := by
          simp [TableStep.useOf?, Ne.symm hname]
        rw [if_neg (fun h => hname h.1), ih, hlist, List.append_nil, recordedUses]

end SymbolTable

/-! ## A table holds what its history leaves -/

/-- A table holds what its history leaves. -/
structure TracksBindings (owner : Path) (steps : List TableStep) (t : SymbolTable) : Prop where
  owner : t.owner = owner
  /-- Declared symbols stand in the order in which they were added. -/
  declared : t.declared = (firstBindings steps).filterMap Symbol.declared?
  /-- Imported symbols stand in the order in which they were added. -/
  imported : t.imported = (firstBindings steps).filterMap Symbol.imported?
  /-- No name is bound twice, neither in one way nor in both. -/
  once : (t.declared.map (·.name) ++ t.imported.map (·.name)).Nodup
  /-- A name is bound to the first symbol of that name that was brought. -/
  lookup : ∀ name symbol, t.lookup name = some symbol ↔
    symbol ∈ firstBindings steps ∧ symbol.name = name
  /-- The ways to ask for a name agree. -/
  declared? : ∀ name s, t.declared? name = some s ↔ t.lookup name = some (.declared s)
  imported? : ∀ name s, t.imported? name = some s ↔ t.lookup name = some (.imported s)
  contains : ∀ name, t.contains name = (t.lookup name).isSome
  /-- The uses of a name are the places that were recorded for it, without repetitions. -/
  uses : ∀ name, t.usesOf name = recordedUses steps name
  usedOnce : ∀ name, (t.usesOf name).Nodup
  /-- A declaration is refused by what its name is bound to, and else adds one entry. -/
  declare : ∀ s, t.declare s = match t.lookup s.name with
    | some existing => .error existing.span
    | none => .ok { t with declared := t.declared ++ [s] }
  /-- So is an import. -/
  bindImport : ∀ s, t.bindImport s = match t.lookup s.name with
    | some existing => .error existing.span
    | none => .ok { t with imported := t.imported ++ [s] }
  /-- What is refused changes nothing. -/
  refused : ∀ (step : TableStep) symbol, step.symbol? = some symbol →
    (t.lookup symbol.name).isSome → step.applyTo t = t
  /-- What is added changes nothing but what its name is bound to. -/
  added : ∀ (step : TableStep) symbol, step.symbol? = some symbol →
    t.lookup symbol.name = none → ∀ name, (step.applyTo t).lookup name =
        (if name = symbol.name then some symbol else t.lookup name) ∧
      (step.applyTo t).usesOf name = t.usesOf name

/-- Whatever its history, a table holds what the history leaves. -/
theorem table_tracksBindings (owner : Path) (steps : List TableStep) :
    TracksBindings owner steps (SymbolTable.after owner steps) := by
  have hholds := SymbolTable.holds_after owner steps
  constructor
  case owner => exact SymbolTable.owner_after owner steps
  case declared => exact hholds.declared
  case imported => exact hholds.imported
  case once => exact hholds.nodup
  case lookup => exact fun name symbol => hholds.lookup_eq_some_iff
  case declared? => exact fun name s => SymbolTable.declared?_eq_some_iff
  case imported? => exact fun name s => SymbolTable.imported?_eq_some_iff hholds.nodup
  case contains =>
    intro name
    rw [Bool.eq_iff_iff, SymbolTable.contains_iff, SymbolTable.isSome_lookup_iff]
  case uses => exact SymbolTable.usesOf_after owner steps
  case usedOnce =>
    intro name
    rw [SymbolTable.usesOf_after]
    exact (pairwise_eraseDupsBy _ _).imp fun hne => (ne_of_beq_false hne).symm
  case declare => exact SymbolTable.declare_eq hholds.nodup
  case bindImport => exact fun s => rfl
  case refused =>
    intro step symbol hstep hbound
    rw [SymbolTable.applyTo_of_symbol? hstep, if_pos (SymbolTable.isSome_lookup_iff.1 hbound)]
  case added =>
    intro step symbol hstep hnew name
    exact ⟨hholds.lookup_applyTo hstep hnew name,
      SymbolTable.usesOf_applyTo_of_symbol? hstep name⟩

end SymbolAtlas
