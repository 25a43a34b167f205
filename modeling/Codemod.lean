import Codemod.CommandLine.Request
import Codemod.CommandLine.Session
import Codemod.CommandLine.Words
import Codemod.Config.Basic
import Codemod.Config.Chain
import Codemod.Config.Fault
import Codemod.Config.Layer
import Codemod.Config.Sources
import Codemod.Decimal.Binary64
import Codemod.Decimal.Places
import Codemod.Decimal.Range
import Codemod.Decimal.Rounding
import Codemod.Dialect
import Codemod.Edit
import Codemod.Fault
import Codemod.FileSystem
import Codemod.Glob
import Codemod.Identifier
import Codemod.Json.Comments
import Codemod.Json.Fault
import Codemod.Json.Printer
import Codemod.Json.Reader
import Codemod.Json.Shown
import Codemod.Json.Value
import Codemod.Keyed
import Codemod.Log.Date
import Codemod.Log.Instant
import Codemod.Log.Journal
import Codemod.Log.Loggers
import Codemod.Log.Record
import Codemod.Log.Rotation
import Codemod.Log.Setup
import Codemod.Log.Severity
import Codemod.Log.Template
import Codemod.Main
import Codemod.NamedExport
import Codemod.NamedImport
import Codemod.Path
import Codemod.Resolution
import Codemod.RootedImport
import Codemod.RootedSpecifier
import Codemod.Run
import Codemod.Settings
import Codemod.SourceFile.Basic
import Codemod.SourceFile.Exports
import Codemod.SourceFile.Modules
import Codemod.Syntax.Grammar.Expressions
import Codemod.Syntax.Grammar.Markup
import Codemod.Syntax.Grammar.Statements
import Codemod.Syntax.Grammar.Types
import Codemod.Syntax.Lexeme
import Codemod.Syntax.Parse
import Codemod.Syntax.Pattern
import Codemod.Syntax.Rule
import Codemod.Syntax.StatementEnd
import Codemod.Syntax.Tree
import Codemod.Syntax.Trivia
import Codemod.Text.Affix
import Codemod.Text.Bytes
import Codemod.Text.Hex
import Codemod.Text.Integer
import Codemod.Text.Printable
import Codemod.Text.Quoted
import Codemod.Text.Utf8
import Codemod.Workspace
import Codemod.Proofs.Journal
import Codemod.Proofs.Project
import Codemod.Proofs.Interleaving
import Codemod.Proofs.Sequential
import Codemod.Proofs.ScheduleIndependence
import Codemod.Proofs.RefusedWrite
import Codemod.Proofs.CleanPath
import Codemod.Proofs.RootedResolution
import Codemod.Proofs.Patches
import Codemod.Proofs.LexemeBounds
import Codemod.Proofs.TreeSpans
import Codemod.Proofs.ImportRepair
import Codemod.Proofs.FailedWork
import Codemod.Proofs.DiskAgreement
import Codemod.Proofs.Reload
import Codemod.Proofs.SecondRooting
import Codemod.Proofs.EditedStatements
import Codemod.Proofs.SecondNaming
import Codemod.Proofs.Inheritance
import Codemod.Proofs.AnchoredPattern
import Codemod.Proofs.SourceExtensions
import Codemod.Proofs.LoadFaults
import Codemod.Proofs.ChainCycles
import Codemod.Proofs.Batch
import Codemod.Proofs.AnyTexts
import Codemod.Proofs.NameNodes
import Codemod.Proofs.DisjointEdits
import Codemod.Proofs.FanOut
import Codemod.Proofs.SiblingTasks
import Codemod.Proofs.EveryFileOnce
import Codemod.Proofs.SmallestChanges
import Codemod.Proofs.Substitution
import Codemod.Proofs.Readings
import Codemod.Proofs.Gaps
import Codemod.Proofs.Words
import Codemod.Proofs.WordRows
import Codemod.Proofs.Specifiers
import Codemod.Proofs.SpecifierLists
import Codemod.Proofs.NamespaceNames
import Codemod.Proofs.Origins
import Codemod.Proofs.ImportClauses
import Codemod.Proofs.ImportStatements
import Codemod.Proofs.ImportBindings
import Codemod.Proofs.Mentions
import Codemod.Proofs.RenamedSpecifiers
import Codemod.Proofs.ExportedNames
import Codemod.Proofs.LocalBindings
import Codemod.Proofs.ComponentTags
import Codemod.Proofs.ExportedOnce
import Codemod.Proofs.Moved
import Codemod.Proofs.EnoughSteps
import Codemod.Proofs.TopLevel
import Codemod.Proofs.TrailingComments
import Codemod.Proofs.StringLiterals
import Codemod.Proofs.QuotedTexts
import Codemod.Proofs.RootedLiterals
import Codemod.Proofs.FoundDefinitions
import Codemod.Proofs.PassedOver
import Codemod.Proofs.Beginnings
import Codemod.Proofs.VisibleEnds
import Codemod.Proofs.StatementSeries
import Codemod.Proofs.SettledLexemes
import Codemod.Proofs.SettledReadings
import Codemod.Proofs.RemovedStatements
import Codemod.Proofs.PlaceSearch
import Codemod.Proofs.FirstMatch
import Codemod.Proofs.SegmentMatching
import Codemod.Proofs.SourceListing
import Codemod.Proofs.CommentPieces
import Codemod.Proofs.SpelledStrings
import Codemod.Proofs.DocumentTokens
import Codemod.Proofs.ScalarReading
import Codemod.Proofs.DocumentReading
import Codemod.Proofs.DroppedCommas
import Codemod.Proofs.ShortenedLiterals
import Codemod.Proofs.TidiedTexts
import Codemod.Proofs.BindableNames
import Codemod.Proofs.KeyedLists
import Codemod.Proofs.NearestNumbers
import Codemod.Proofs.ShortestDecimals
import Codemod.Proofs.WrittenNumbers
import Codemod.Proofs.WrittenValues
import Codemod.Proofs.Timestamps
import Codemod.Proofs.LogLines
import Codemod.Proofs.RotatedFiles
import Codemod.Proofs.Deliveries
