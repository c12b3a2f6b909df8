import SymbolAtlas.Compiler.Basic
import SymbolAtlas.Text.Word

/-!
# Finding a definition

## Main Definitions

* `Definition`: where a symbol is declared, and under which name.
* `Module.definitionAt?`: the declaration behind the word under a caret.
* `findDefinition`: the same, for a module that is still to be compiled.
-/

namespace SymbolAtlas

/-- Where a symbol is declared. -/
structure Definition where
  module : Path
  span : Span
  /-- The declared name, which differs from the word under the caret when the
  symbol was imported under an alias. -/
  name : String
deriving DecidableEq, Repr

/-- The declaration behind a symbol that is bound in `module`. -/
def Symbol.definitionIn (module : Path) (s : Symbol) : Definition :=
  let origin := s.originIn module
  ⟨origin.module, origin.span, origin.name⟩

/-- The declaration behind the word under a caret, if that is a bound name. -/
def Module.definitionAt? (m : Module) (line column : Nat) : Option Definition :=
  match wordAt m.source line column with
  | .error _ => none
  | .ok word =>
    if word.isEmpty then none
    else (m.table.lookup word.text).map (Symbol.definitionIn m.path)

/-- The declaration behind the word under a caret.  There is none when the
module cannot be compiled. -/
def findDefinition {σ : Type} (c : Compiler σ) (file : Path) (buffer : Option String)
    (line column : Nat) : StateM σ (Option Definition) := do
  match ← c.compile file buffer with
  | .error _ => return none
  | .ok m => return m.definitionAt? line column

end SymbolAtlas
