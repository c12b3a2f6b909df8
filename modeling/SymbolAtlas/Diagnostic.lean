import SymbolAtlas.Fault
import SymbolAtlas.SymbolTable

/-!
# Diagnostics

What an editor shows about a module: an error for the fault that kept it from
being compiled, or warnings for imports that are never used.

## Main Definitions

* `Severity`, `RelatedPlace`, `Diagnostic`.
* `Diagnostic.ofFault`: the error that reports a fault.
* `unusedImports`: the warnings for a compiled module.
* `DiagnosticLog`: diagnostics in the order in which they came up.
-/

namespace SymbolAtlas

/-- How serious a diagnostic is. -/
inductive Severity where
  | error
  | warning
  | info
  | hint
deriving DecidableEq, Repr

/-- The number by which editors know a severity. -/
def Severity.number : Severity → Nat
  | .error => 1
  | .warning => 2
  | .info => 3
  | .hint => 4

/-- A further place that a diagnostic refers to. -/
structure RelatedPlace where
  file : Path
  span : Span
  message : String
deriving DecidableEq, Repr

/-- A message about a place in a module. -/
structure Diagnostic where
  file : Path
  span : Span
  severity : Severity
  code? : Option String
  message : String
  related : List RelatedPlace
deriving DecidableEq, Repr

namespace Fault

/-- The code under which a fault is reported. -/
def code : Fault → String
  | malformed _ (.unrecognised _) => "E0001"
  | malformed _ _ => "E0002"
  | duplicateSymbol _ _ _ => "E0003"
  | moduleNotFound _ _ _ => "E0004"
  | symbolNotFound _ _ _ _ => "E0005"
  | importCycle _ _ => "E0006"
  | unreadable _ _ => "E0007"

/-- What is wrong, without saying in which module. -/
def summary : Fault → String
  | malformed _ cause => cause.message
  | duplicateSymbol _ name _ => "duplicate definition: '" ++ name ++ "' is already defined"
  | moduleNotFound _ package _ => "cannot find module '" ++ package.display ++ "'"
  | symbolNotFound _ module name _ =>
    "module " ++ module.spelling ++ " does not define '" ++ name ++ "'"
  | importCycle _ module => "import cycle through " ++ module.spelling
  | unreadable _ cause => "cannot read module: " ++ cause.message

/-- The imported module that a fault is about, if it is about one. -/
def importedModule? : Fault → Option Path
  | symbolNotFound _ module _ _ => some module
  | importCycle _ module => some module
  | _ => none

end Fault

namespace Diagnostic

/-- The error that reports a fault.  A fault without a place is reported at the
beginning of its module. -/
def ofFault (fault : Fault) : Diagnostic :=
  { file := fault.path
    span := fault.span?.getD Span.origin
    severity := .error
    code? := some fault.code
    message := fault.summary
    related := fault.importedModule?.toList.map (⟨·, Span.origin, "imported module"⟩) }

end Diagnostic

/-- Whether an import is used nowhere but where it is bound. -/
def isUnused (table : SymbolTable) (symbol : ImportedSymbol) : Bool :=
  (table.usesOf symbol.name).all (· == symbol.span)

/-- The warnings for a compiled module: one for each import that is not used. -/
def unusedImports (m : Module) : List Diagnostic :=
  (m.table.imported.filter (isUnused m.table)).map fun symbol =>
    { file := m.path
      span := symbol.span
      severity := .warning
      code? := some "W0001"
      message := "unused import: '" ++ symbol.name ++ "'"
      related := [] }

/-- Diagnostics in the order in which they came up. -/
structure DiagnosticLog where
  entries : List Diagnostic
deriving DecidableEq, Repr

namespace DiagnosticLog

/-- A log with nothing in it. -/
def empty : DiagnosticLog := ⟨[]⟩

/-- The log with further diagnostics at its end. -/
def append (log : DiagnosticLog) (more : List Diagnostic) : DiagnosticLog :=
  ⟨log.entries ++ more⟩

/-- The diagnostics for one file. -/
def forFile (log : DiagnosticLog) (file : Path) : List Diagnostic :=
  log.entries.filter (·.file.same file)

/-- How many diagnostics there are of a severity. -/
def count (log : DiagnosticLog) (severity : Severity) : Nat :=
  log.entries.countP (·.severity = severity)

/-- Whether there is an error. -/
def hasErrors (log : DiagnosticLog) : Bool := log.entries.any (·.severity = .error)

end DiagnosticLog

end SymbolAtlas
