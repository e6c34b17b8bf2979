import Vendoring.Arguments
import Vendoring.Batch
import Vendoring.Config
import Vendoring.Decision
import Vendoring.Diff
import Vendoring.Disk
import Vendoring.DottedPath
import Vendoring.Edit
import Vendoring.Error
import Vendoring.FileRevision
import Vendoring.Import
import Vendoring.Install
import Vendoring.Invocation
import Vendoring.Journal
import Vendoring.Json.Document
import Vendoring.Json.Reader
import Vendoring.Location
import Vendoring.Main
import Vendoring.PackageSet
import Vendoring.Patch
import Vendoring.Path
import Vendoring.Programs
import Vendoring.Project
import Vendoring.Proofs.Destination
import Vendoring.Proofs.Edit
import Vendoring.Proofs.Idempotence
import Vendoring.Proofs.Places
import Vendoring.Proofs.Reading
import Vendoring.Proofs.Relocation
import Vendoring.Proofs.RenameTable
import Vendoring.Proofs.Simulation
import Vendoring.Proofs.Steady
import Vendoring.Relocation
import Vendoring.RenameTable
import Vendoring.Renaming
import Vendoring.Session
import Vendoring.Shell.Filter
import Vendoring.Shell.Pattern
import Vendoring.Shell.Regex
import Vendoring.Shell.Run
import Vendoring.Shell.Syntax
import Vendoring.Shell.Tool
import Vendoring.Source.Expression
import Vendoring.Source.Find
import Vendoring.Source.Language
import Vendoring.Source.Parse
import Vendoring.Source.Repair
import Vendoring.Source.Rule
import Vendoring.Source.Token
import Vendoring.Source.Tree
import Vendoring.Statement
import Vendoring.Text.Blank
import Vendoring.Text.CharClass
import Vendoring.Text.Decimal
import Vendoring.Text.Quoted
import Vendoring.Text.Utf8
import Vendoring.VendorRoot
import Vendoring.Proofs.PlaceOrder
import Vendoring.Proofs.Disk
import Vendoring.Proofs.Approach
import Vendoring.Proofs.Renames
import Vendoring.Proofs.Provided
import Vendoring.Proofs.Account
import Vendoring.Proofs.Alike
import Vendoring.Proofs.Orderly
import Vendoring.Proofs.NameSets
import Vendoring.Proofs.TableAgain
import Vendoring.Proofs.Emission
import Vendoring.Proofs.Rerun
import Vendoring.Proofs.Standing
import Vendoring.Proofs.History
import Vendoring.Proofs.Identifiers
import Vendoring.Proofs.DryRun
import Vendoring.Proofs.Stretches
import Vendoring.Proofs.Tokens
import Vendoring.Proofs.Yields
import Vendoring.Proofs.Vocabularies
import Vendoring.Proofs.ImportTrees
import Vendoring.Proofs.Placement
import Vendoring.Proofs.ImportSites
import Vendoring.Proofs.Weaving
import Vendoring.Proofs.Lossless
import Vendoring.Proofs.Selection
import Vendoring.Proofs.Abort
import Vendoring.Proofs.Refusal
import Vendoring.Proofs.SameTree
import Vendoring.Proofs.FreshInstall
import Vendoring.Proofs.Delivery
import Vendoring.Proofs.Preservation
import Vendoring.Proofs.PatchPaths
import Vendoring.Proofs.Plans
import Vendoring.Proofs.Forms
import Vendoring.Proofs.Partition
import Vendoring.Proofs.ModuleLevel
import Vendoring.Proofs.Interleaving
import Vendoring.Proofs.Backward
import Vendoring.Proofs.Decisions
import Vendoring.Proofs.Replacement
import Vendoring.Proofs.Nesting
import Vendoring.Proofs.Documents
import Vendoring.Proofs.ConfigFile
import Vendoring.Proofs.Pieces
import Vendoring.Proofs.Answers
import Vendoring.Proofs.WrittenImports
import Vendoring.Proofs.ReadBack
import Vendoring.Proofs.Walks
import Vendoring.Proofs.ConsumerRoots
import Vendoring.Proofs.JsonReport
import Vendoring.Proofs.Wording
import Vendoring.Proofs.ExactSpans
