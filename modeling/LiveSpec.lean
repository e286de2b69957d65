import LiveSpec.CommandLine.Arguments
import LiveSpec.CommandLine.Outcome
import LiveSpec.CommandLine.Project
import LiveSpec.CommandLine.Run
import LiveSpec.Concepts.CycleSearch
import LiveSpec.Concepts.Dictionary
import LiveSpec.Concepts.Expansion
import LiveSpec.Config.Settings
import LiveSpec.Decimal.Binary64
import LiveSpec.Decimal.Ratio
import LiveSpec.Disk.Edit
import LiveSpec.Disk.Glob
import LiveSpec.Disk.IgnoreLevel
import LiveSpec.Disk.IgnoreRules
import LiveSpec.Disk.Repository
import LiveSpec.Disk.Tree
import LiveSpec.Disk.Walk
import LiveSpec.Document.Argument
import LiveSpec.Document.Scope
import LiveSpec.Document.Signature
import LiveSpec.Document.Specification
import LiveSpec.Document.Step
import LiveSpec.Document.Summary
import LiveSpec.Document.Usage
import LiveSpec.Grammar.ConceptText
import LiveSpec.Grammar.Fault
import LiveSpec.Grammar.Line
import LiveSpec.Grammar.SpecificationText
import LiveSpec.Grammar.StepText
import LiveSpec.Grammar.TableRow
import LiveSpec.Index.Activity
import LiveSpec.Index.Barrier
import LiveSpec.Index.Build
import LiveSpec.Index.Cache
import LiveSpec.Index.Catalogue
import LiveSpec.Index.Change
import LiveSpec.Index.Contents
import LiveSpec.Index.Dispatch
import LiveSpec.Index.Report
import LiveSpec.Main
import LiveSpec.Output.Json
import LiveSpec.Output.Listing
import LiveSpec.Output.Style
import LiveSpec.Path.Basic
import LiveSpec.Path.Map
import LiveSpec.Source.Kind
import LiveSpec.Text.Blank
import LiveSpec.Text.Split
import LiveSpec.Watch.Coverage
import LiveSpec.Watch.Event
import LiveSpec.Watch.Health
import LiveSpec.Watch.Report
import LiveSpec.Watch.Service
import LiveSpec.Watch.Startup
import LiveSpec.Watch.SystemWatches
import LiveSpec.Yaml.Block
import LiveSpec.Yaml.Character
import LiveSpec.Yaml.Cursor
import LiveSpec.Yaml.Node
import LiveSpec.Yaml.Plain
import LiveSpec.Yaml.Quoted
import LiveSpec.Yaml.Scalar
import LiveSpec.Yaml.Tag
import LiveSpec.Yaml.Token
import LiveSpec.Yaml.TokenReader
import LiveSpec.Proofs.Concepts.Admission
import LiveSpec.Proofs.Concepts.Expansion
import LiveSpec.Proofs.Index.Catalogue
import LiveSpec.Proofs.Index.Coherence
import LiveSpec.Proofs.Index.Build
import LiveSpec.Proofs.Index.Interleaving
import LiveSpec.Proofs.Index.Turns
import LiveSpec.Proofs.Index.Scheduling
import LiveSpec.Proofs.Index.Dispatch
import LiveSpec.Proofs.Index.Changes
import LiveSpec.Proofs.Index.Convergence
import LiveSpec.Proofs.Index.TreeRemoval
import LiveSpec.Proofs.Concepts.Resolution
import LiveSpec.Proofs.Grammar.Acceptance
import LiveSpec.Proofs.Index.Readiness
import LiveSpec.Proofs.Concepts.CycleReport
import LiveSpec.Proofs.Grammar.Placeholders
import LiveSpec.Proofs.Concepts.Arity
import LiveSpec.Proofs.Grammar.Sections
import LiveSpec.Proofs.Grammar.Rows
import LiveSpec.Proofs.Grammar.Correspondence
import LiveSpec.Proofs.Concepts.Marks
import LiveSpec.Proofs.Index.Listing
import LiveSpec.Proofs.Grammar.Outline
import LiveSpec.Proofs.Grammar.Spans
import LiveSpec.Proofs.Grammar.ConceptLayout
import LiveSpec.Proofs.Grammar.ConceptReading
import LiveSpec.Proofs.Index.Writing
import LiveSpec.Proofs.Watch.Arrivals
import LiveSpec.Proofs.Index.Provenance
import LiveSpec.Proofs.Index.Accounting
import LiveSpec.Proofs.Index.Repetition
import LiveSpec.Proofs.Concepts.Mentions
import LiveSpec.Proofs.Concepts.SimpleCycles
import LiveSpec.Proofs.Concepts.FullExpansion
import LiveSpec.Proofs.Grammar.Spelling
import LiveSpec.Proofs.Grammar.ShownArguments
import LiveSpec.Proofs.Document.Climb
import LiveSpec.Proofs.Index.Writers
import LiveSpec.Proofs.Concepts.Stopping
import LiveSpec.Proofs.Concepts.Renumbering
import LiveSpec.Proofs.Concepts.Independence
import LiveSpec.Proofs.Concepts.Fates
import LiveSpec.Proofs.Index.Failures
import LiveSpec.Proofs.Index.Stores
import LiveSpec.Proofs.Index.AnyOrder
import LiveSpec.Proofs.Index.TreeByFiles
import LiveSpec.Proofs.Grammar.Refusals
import LiveSpec.Proofs.Grammar.WellFormed
import LiveSpec.Proofs.Watch.Startup
import LiveSpec.Proofs.Watch.Discovery
import LiveSpec.Proofs.Path.Place
import LiveSpec.Proofs.Disk.Ways
import LiveSpec.Proofs.Disk.Walk
import LiveSpec.Proofs.CommandLine.Arguments
import LiveSpec.Proofs.CommandLine.Queries
