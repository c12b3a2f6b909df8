import SymbolAtlas.Compiler.Basic
import SymbolAtlas.Diagnostic

/-!
# Checking a module

## Main Definitions

* `checkModule`: the diagnostics of one module.
-/

namespace SymbolAtlas

/-- What there is to say about the result of a compilation: the fault, or the
imports that are not used. -/
def diagnose : Except Fault Module → List Diagnostic
  | .ok m => unusedImports m
  | .error fault => [.ofFault fault]

/-- Compile one module and report on it. -/
def checkModule {σ : Type} (c : Compiler σ) (file : Path) (buffer : Option String) :
    StateM σ (List Diagnostic) := do
  return diagnose (← c.compile file buffer)

end SymbolAtlas
