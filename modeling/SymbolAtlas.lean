import SymbolAtlas.Compiler.Basic
import SymbolAtlas.Compiler.Crawl
import SymbolAtlas.Compiler.Disturbance
import SymbolAtlas.Config
import SymbolAtlas.Diagnostic
import SymbolAtlas.Fault
import SymbolAtlas.FileRoster
import SymbolAtlas.FileTree.Basic
import SymbolAtlas.FileTree.Canonical
import SymbolAtlas.FileTree.Update
import SymbolAtlas.ImportIndex.Basic
import SymbolAtlas.ImportIndex.Spread
import SymbolAtlas.Locations
import SymbolAtlas.Outline.Basic
import SymbolAtlas.Outline.Parser
import SymbolAtlas.Package.Basic
import SymbolAtlas.Package.Lookup
import SymbolAtlas.Path
import SymbolAtlas.Proofs.Agreement
import SymbolAtlas.Proofs.BlankedComments
import SymbolAtlas.Proofs.CaretTokens
import SymbolAtlas.Proofs.ChangedTexts
import SymbolAtlas.Proofs.Climb
import SymbolAtlas.Proofs.ClimbCycles
import SymbolAtlas.Proofs.Compilation
import SymbolAtlas.Proofs.Diagnosis
import SymbolAtlas.Proofs.FaultFinding
import SymbolAtlas.Proofs.Files
import SymbolAtlas.Proofs.Grammar
import SymbolAtlas.Proofs.IdentifierRoles
import SymbolAtlas.Proofs.Importers
import SymbolAtlas.Proofs.IndexHistory
import SymbolAtlas.Proofs.LeftBehind
import SymbolAtlas.Proofs.LexicalRules
import SymbolAtlas.Proofs.LinkedIndex
import SymbolAtlas.Proofs.Linking
import SymbolAtlas.Proofs.LongestLexeme
import SymbolAtlas.Proofs.MaximalMunch
import SymbolAtlas.Proofs.MaximalWords
import SymbolAtlas.Proofs.ModuleGrammar
import SymbolAtlas.Proofs.Offsets
import SymbolAtlas.Proofs.Ordering
import SymbolAtlas.Proofs.PackageText
import SymbolAtlas.Proofs.Placement
import SymbolAtlas.Proofs.ReferenceIndex
import SymbolAtlas.Proofs.ReferenceSymmetry
import SymbolAtlas.Proofs.Relabelling
import SymbolAtlas.Proofs.Relexing
import SymbolAtlas.Proofs.RenameCaret
import SymbolAtlas.Proofs.RenameEdits
import SymbolAtlas.Proofs.RenameOrigins
import SymbolAtlas.Proofs.RenamePreserves
import SymbolAtlas.Proofs.RenameReach
import SymbolAtlas.Proofs.RenameReferences
import SymbolAtlas.Proofs.RenameSymmetry
import SymbolAtlas.Proofs.RenameVerdict
import SymbolAtlas.Proofs.RenamedModules
import SymbolAtlas.Proofs.Replacing
import SymbolAtlas.Proofs.Results
import SymbolAtlas.Proofs.Sources
import SymbolAtlas.Proofs.Spread
import SymbolAtlas.Proofs.SpreadExact
import SymbolAtlas.Proofs.Stretches
import SymbolAtlas.Proofs.SyntaxErrors
import SymbolAtlas.Proofs.Tables
import SymbolAtlas.Proofs.Unfinished
import SymbolAtlas.Proofs.Verification
import SymbolAtlas.Proofs.Words
import SymbolAtlas.Proofs.WorkspaceIndex
import SymbolAtlas.Request.Check
import SymbolAtlas.Request.Completion
import SymbolAtlas.Request.Definition
import SymbolAtlas.Request.References
import SymbolAtlas.Request.Rename
import SymbolAtlas.Request.Search
import SymbolAtlas.Request.Word
import SymbolAtlas.SymbolTable
import SymbolAtlas.SyntaxError
import SymbolAtlas.Text.Dictionary
import SymbolAtlas.Text.LineStarts
import SymbolAtlas.Text.Lines
import SymbolAtlas.Text.Position
import SymbolAtlas.Text.Split
import SymbolAtlas.Text.Word
import SymbolAtlas.Token.Basic
import SymbolAtlas.Token.Lexer
import SymbolAtlas.Workspace
import SymbolAtlas.Proofs.LocalCompilation
import SymbolAtlas.Proofs.WorkspaceSearch
import SymbolAtlas.Proofs.BlankedComments
import SymbolAtlas.Proofs.PackageText
import SymbolAtlas.Proofs.JoinedPaths
import SymbolAtlas.Proofs.ScanOrder
import SymbolAtlas.Proofs.PackageCompletion
import SymbolAtlas.Proofs.FolderClimb
import SymbolAtlas.Proofs.ImportedFiles
import SymbolAtlas.Proofs.RelativePackages
import SymbolAtlas.Proofs.RosterHistory
import SymbolAtlas.Proofs.TableHistory
import SymbolAtlas.Proofs.Sessions
import SymbolAtlas.Proofs.ListedFiles
