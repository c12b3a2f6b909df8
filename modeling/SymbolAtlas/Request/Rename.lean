import SymbolAtlas.Diagnostic
import SymbolAtlas.ImportIndex.Spread
import SymbolAtlas.Text.Word
import SymbolAtlas.Workspace

/-!
# Planning a rename

A rename is planned for a name as it is bound in one module, across all modules
beneath a root folder.  Planning changes no file.  It ends in one of three ways:
with a complete plan, in which every location was checked against the text as it
is now; with a notice that the symbol belongs to a module outside the root; or
abandoned, with no edits at all.

## Main Definitions

* `RenamePlan`, with `RenamePlan.insert`, `SkipNotice`, `RenameOutcome`.
* `AbandonReason`, `Abandonment`.
* `verifyLocations`: the plan for given locations, if all of them hold the name.
* `concludeRename`: the outcome, once all modules are compiled.
* `planRenameSymbol` and `planRename`: the rename of a name, and of the word
  under a caret.
-/

namespace SymbolAtlas

/-- One place to change, with the text that stands there. -/
structure RenameEdit where
  span : Span
  symbol : String
deriving DecidableEq, Repr

/-- Edits are ordered by place, and at one place by text. -/
def RenameEdit.before (a b : RenameEdit) : Bool :=
  a.span.before b.span || (a.span == b.span && nameBefore a.symbol b.symbol)

/-- All edits of a rename, by module: modules in path order, and the edits of a
module by place. -/
structure RenamePlan where
  edits : List (Path × List RenameEdit)
deriving DecidableEq, Repr

namespace RenamePlan

/-- The plan that changes nothing. -/
def empty : RenamePlan := ⟨[]⟩

/-- Add edits at some spans of a module, which all hold the name.  The edits of the
module stay in order and without repetition. -/
def insert (p : RenamePlan) (module : Path) (name : String) (spans : List Span) : RenamePlan :=
  ⟨alterEntry module (fun old => sorted RenameEdit.before (old ++ spans.map (⟨·, name⟩))) p.edits⟩

/-- How many modules are changed. -/
def moduleCount (p : RenamePlan) : Nat := p.edits.length

/-- How many edits there are. -/
def size (p : RenamePlan) : Nat := (p.edits.flatMap (·.2)).length

/-- Whether nothing is changed. -/
def isEmpty (p : RenamePlan) : Bool := p.edits.isEmpty

end RenamePlan

/-- A rename was not planned because the symbol is declared outside the root. -/
structure SkipNotice where
  /-- The module in which the rename was asked for. -/
  file : Path
  symbol : String
  /-- Where the symbol is bound in that module. -/
  span : Span
  /-- The module that the symbol belongs to. -/
  origin : Path
deriving DecidableEq, Repr

/-- The message that an editor shows for a skipped rename. -/
def SkipNotice.diagnostic (n : SkipNotice) : Diagnostic :=
  { file := n.file
    span := n.span
    severity := .info
    code? := some "I0001"
    message := "'" ++ n.symbol ++ "' is declared in " ++ n.origin.spelling ++
      ", outside the workspace; rename skipped"
    related := [] }

/-- How planning a rename ends when it is not abandoned. -/
inductive RenameOutcome where
  | completed (plan : RenamePlan)
  | skipped (notice : SkipNotice)
deriving DecidableEq, Repr

/-- Why a rename is abandoned. -/
inductive AbandonReason where
  /-- A location does not hold the symbol any more. -/
  | locationMismatch (span : Span)
  /-- A module does not compile. -/
  | fault (cause : Fault)
  /-- A module cannot be read. -/
  | unreadable (cause : ReadError)
  /-- The name is imported through a module that is not in the workspace. -/
  | missingOrigin
  /-- The root is not a folder. -/
  | root (cause : NotAFolder)
deriving DecidableEq, Repr

/-- The reason, in words. -/
def AbandonReason.message : AbandonReason → String
  | locationMismatch span => "location " ++ span.display ++ " no longer holds the symbol"
  | fault cause => "module does not compile: " ++ cause.message
  | unreadable cause => "cannot read module: " ++ cause.message
  | missingOrigin => "import origin is not in the workspace"
  | root cause => cause.message

/-- A rename that cannot be planned safely, with the module that stands against
it. -/
structure Abandonment where
  file : Path
  symbol : String
  reason : AbandonReason
deriving DecidableEq, Repr

namespace Abandonment

/-- What is reported for an abandoned rename. -/
def message (a : Abandonment) : String :=
  "rename abandoned: '" ++ a.symbol ++ "' in " ++ a.file.spelling ++ ": " ++ a.reason.message ++
    "; the rename must be done manually"

/-- A rename is abandoned because of a fault, in the module where it was met. -/
def ofFault (symbol : String) : Fault → Abandonment
  | .unreadable path cause => ⟨path, symbol, .unreadable cause⟩
  | other => ⟨other.path, symbol, .fault other⟩

end Abandonment

/-- Check locations against the texts as they are now, module by module, and add
them to a plan.  The first that fails stands for all. -/
def verifyLocations (tree : FileTree) (name : String) :
    Workspace → RenamePlan → List (Path × List Span) → Except Abandonment RenamePlan
  | _, plan, [] => .ok plan
  | workspace, plan, (module, spans) :: rest =>
    match workspace.source tree module with
    | (.error cause, _) => .error ⟨module, name, .unreadable cause⟩
    | (.ok text, workspace) =>
      match spans.find? (!holds text · name) with
      | some span => .error ⟨module, name, .locationMismatch span⟩
      | none => verifyLocations tree name workspace (plan.insert module name spans) rest

/-- The modules among some results of compilations, or the first fault among
them. -/
def allModules (symbol : String) :
    List (Path × Except Fault Module) → Except Abandonment (List Module)
  | [] => .ok []
  | (_, .error fault) :: _ => .error (.ofFault symbol fault)
  | (_, .ok m) :: rest =>
    match allModules symbol rest with
    | .error e => .error e
    | .ok modules => .ok (m :: modules)

/-- The outcome of renaming the name that a symbol is bound to in `start`, once
the modules of the workspace are compiled. -/
def concludeRename (tree : FileTree) (workspace : Workspace) (start : Module) (name : String)
    (symbol : Symbol) (results : List (Path × Except Fault Module)) :
    Except Abandonment RenameOutcome :=
  match allModules name results with
  | .error e => .error e
  | .ok modules =>
    let index := ImportIndex.ofModules (modules ++ [start])
    match index.rootBinding ⟨start.path, name⟩ with
    | .error missing => .error ⟨missing, name, .missingOrigin⟩
    | .ok root =>
      if workspace.contains tree root.module then
        match verifyLocations tree root.name workspace .empty (index.spread root).entries with
        | .error e => .error e
        | .ok plan => .ok (.completed plan)
      else .ok (.skipped ⟨start.path, name, symbol.span, root.module⟩)

/-- The module that an imported symbol is declared in, when that lies outside of
a root. -/
def Symbol.foreignOrigin? (root : Path) : Symbol → Option Path
  | .declared _ => none
  | .imported s => if s.origin.module.isBeneath root then none else some s.origin.module

/-- Plan the rename of a name as it is bound in a file.  A name that is not bound
there needs no edits. -/
def planRenameSymbol {σ : Type} (c : Compiler σ) (config : Config) (file : Path)
    (name : String) (root : Path) : StateM σ (Except Abandonment RenameOutcome) := do
  match ← c.compile file none with
  | .error fault => return .error (.ofFault name fault)
  | .ok start =>
    let tree ← c.currentTree
    let root := tree.canonical root
    match start.table.lookup name with
    | none => return .ok (.completed .empty)
    | some symbol =>
      match symbol.foreignOrigin? root with
      | some origin => return .ok (.skipped ⟨start.path, name, symbol.span, origin⟩)
      | none =>
        match Workspace.scan tree config.extension root with
        | .error e => return .error ⟨root, name, .root e⟩
        | .ok workspace =>
          let results ← workspace.loadAll c
          -- the texts are checked in the tree as it is after all compilations
          return concludeRename (← c.currentTree) workspace start name symbol results

/-- Plan the rename of the word under a caret.  Where there is no word, nothing
needs to be changed. -/
def planRename {σ : Type} (c : Compiler σ) (config : Config) (file : Path)
    (line column : Nat) (root : Path) : StateM σ (Except Abandonment RenameOutcome) := do
  match (← c.currentTree).readText file with
  | .error cause => return .error ⟨file, "", .unreadable cause⟩
  | .ok text =>
    match wordAt text line column with
    | .error _ => return .ok (.completed .empty)
    | .ok word =>
      if word.isEmpty then return .ok (.completed .empty)
      else planRenameSymbol c config file word.text root

end SymbolAtlas
