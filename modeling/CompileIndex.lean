import CompileIndex.Answer
import CompileIndex.Arguments
import CompileIndex.CommandLine.Invocation
import CompileIndex.CommandLine.Reader
import CompileIndex.CommandLine.Usage
import CompileIndex.Database.Entry
import CompileIndex.Database.Error
import CompileIndex.Database.Import
import CompileIndex.Database.Report
import CompileIndex.Decimal.Shortest
import CompileIndex.FileSystem.Basic
import CompileIndex.FileSystem.Memory
import CompileIndex.FileSystem.Survey
import CompileIndex.FileSystem.Tree
import CompileIndex.Glob.Pattern
import CompileIndex.Glob.Walk
import CompileIndex.Index
import CompileIndex.Json.Error
import CompileIndex.Json.Literal
import CompileIndex.Json.Numeral
import CompileIndex.Json.Printer
import CompileIndex.Json.Reader
import CompileIndex.Json.Value
import CompileIndex.Language
import CompileIndex.Layout
import CompileIndex.LogConfig
import CompileIndex.Main
import CompileIndex.Metadata
import CompileIndex.Path.Basic
import CompileIndex.Path.Clean
import CompileIndex.Path.Component
import CompileIndex.Path.Map
import CompileIndex.Program
import CompileIndex.Reanalysis
import CompileIndex.Serve.Command
import CompileIndex.Serve.Input
import CompileIndex.Serve.Output
import CompileIndex.Serve.Service
import CompileIndex.Session.Basic
import CompileIndex.Session.Event
import CompileIndex.Session.ProjectId
import CompileIndex.Session.Query
import CompileIndex.Session.Workspace
import CompileIndex.Shell.Error
import CompileIndex.Shell.Expansion
import CompileIndex.Shell.Scan
import CompileIndex.Shell.Substitution
import CompileIndex.Shell.Words
import CompileIndex.Snapshot
import CompileIndex.Text.Blank
import CompileIndex.Text.Printable
import CompileIndex.Text.Quoted
import CompileIndex.Text.Utf8
import CompileIndex.Proofs.Session.Run
import CompileIndex.Proofs.Session.Generations
import CompileIndex.Proofs.Index.Imports
import CompileIndex.Proofs.Path.Above
import CompileIndex.Proofs.Snapshot.Representatives
import CompileIndex.Proofs.Index.Fallback
import CompileIndex.Proofs.Index.Lookup
import CompileIndex.Proofs.Shell.Quoting
import CompileIndex.Proofs.Database.Listing
import CompileIndex.Proofs.Database.CallingOff
import CompileIndex.Proofs.Session.Settlement
import CompileIndex.Proofs.Session.Tickets
import CompileIndex.Proofs.Session.Traffic
import CompileIndex.Proofs.Session.Indexes
import CompileIndex.Proofs.Serve.Listed
import CompileIndex.Proofs.Session.Reports
import CompileIndex.Proofs.Session.Requests
import CompileIndex.Proofs.Session.Effects
import CompileIndex.Proofs.Session.Isolation
import CompileIndex.Proofs.Serve.Books
import CompileIndex.Proofs.Serve.Replies
import CompileIndex.Proofs.Serve.Events
import CompileIndex.Proofs.Serve.Sources
import CompileIndex.Proofs.Snapshot.Folders
import CompileIndex.Proofs.Session.Statuses
import CompileIndex.Proofs.Session.ChangedSources
import CompileIndex.Proofs.Index.Changes
import CompileIndex.Proofs.Shell.Grammar
import CompileIndex.Proofs.Shell.Fields
import CompileIndex.Proofs.Shell.References
import CompileIndex.Proofs.Shell.Unfinished
import CompileIndex.Proofs.Arguments.Macros
import CompileIndex.Proofs.Arguments.Concatenation
import CompileIndex.Proofs.Arguments.Rewording
import CompileIndex.Proofs.Path.Absolute
import CompileIndex.Proofs.Index.Coverage
import CompileIndex.Proofs.Index.Links
import CompileIndex.Proofs.Shell.Patterns
import CompileIndex.Proofs.Arguments.Folders
import CompileIndex.Proofs.Database.Placement
import CompileIndex.Proofs.Serve.AllProjects
import CompileIndex.Proofs.Serve.FirstImports
import CompileIndex.Proofs.Serve.Lines
